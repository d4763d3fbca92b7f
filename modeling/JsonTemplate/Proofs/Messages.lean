/-
The messages of failures. A message is put together from fixed words, names and numbers, and a
phrase is looked for in its pieces one by one where they meet at a character that the phrase does
not have, or does not begin with. So the phrase that tells a missing key stands in no message that
the engine raises, but for that of a missing key and that of a fragment whose name has it
(`Cause.Raised.message_saysMissing`), provided that no type of a value has it in its name.
-/
import JsonTemplate.Proofs.Invariant
import JsonTemplate.Template.Expand

namespace JsonTemplate

/-! ## Searching pieces -/

namespace Text

variable {part : List Char}

theorem isPrefixOf_append_cons {c : Char} (h : c ∉ part) (text after : List Char) :
    part.isPrefixOf (text ++ c :: after) = part.isPrefixOf text := by
  induction part generalizing text with
  | nil => simp
  | cons p rest ih =>
    rw [List.mem_cons, not_or] at h
    cases text with
    | nil => simp [List.isPrefixOf, Ne.symm h.1]
    | cons d text => simp [List.isPrefixOf, ih h.2]

/-- No occurrence reaches over a character that the part does not have. -/
theorem occursIn_append_cons {c : Char} (h : c ∉ part) (text after : List Char) :
    occursIn part (text ++ c :: after) = (occursIn part text || occursIn part after) := by
  induction text with
  | nil =>
    have hstart := isPrefixOf_append_cons h [] after
    rw [List.nil_append] at hstart
    rw [List.nil_append, occursIn, occursIn, hstart]
    cases part <;> rfl
  | cons d text ih =>
    have hstart := isPrefixOf_append_cons h (d :: text) after
    rw [List.cons_append] at hstart
    rw [List.cons_append, occursIn, occursIn, hstart, ih, Bool.or_assoc]

/-- No occurrence begins before the first character of the part. -/
theorem occursIn_append_of_not_mem {c : Char} {before : List Char} (h : c ∉ before)
    (text : List Char) : occursIn (c :: part) (before ++ text) = occursIn (c :: part) text := by
  induction before with
  | nil => rfl
  | cons d before ih =>
    rw [List.mem_cons, not_or] at h
    rw [List.cons_append, occursIn, ih h.2]
    simp [h.1]

theorem occursIn_of_not_mem {c : Char} (h : c ∈ part) {text : List Char} (htext : c ∉ text) :
    occursIn part text = false := by
  induction text with
  | nil => cases part with
    | nil => cases h
    | cons => rfl
  | cons d text ih =>
    rw [occursIn, ih fun hmem => htext (List.mem_cons_of_mem _ hmem), Bool.or_false,
      Bool.eq_false_iff, ne_eq, List.isPrefixOf_iff_prefix]
    exact fun hstart => htext (hstart.subset h)

end Text

/-- Whether a text has the phrase that tells a missing key. -/
def SaysMissing (text : String) : Prop :=
  Text.occursIn "no such key".toList text.toList = true

instance : DecidablePred SaysMissing :=
  fun text => inferInstanceAs (Decidable (Text.occursIn "no such key".toList text.toList = true))

namespace SaysMissing

/-- The phrase does not reach over a text that begins with a character it does not have. -/
theorem append {c : Char} {after : String} (hafter : after.toList.head? = some c)
    (hc : c ∉ "no such key".toList) (text : String) :
    SaysMissing (text ++ after) ↔ SaysMissing text ∨ SaysMissing after := by
  obtain ⟨rest, hrest⟩ : ∃ rest, after.toList = c :: rest := by
    cases h : after.toList with
    | nil => rw [h] at hafter; cases hafter
    | cons d rest => rw [h] at hafter; cases hafter; exact ⟨rest, rfl⟩
  have hn : Text.occursIn "no such key".toList (c :: rest) =
      Text.occursIn "no such key".toList rest := by
    have h := Text.occursIn_append_cons hc [] rest
    rwa [List.nil_append] at h
  unfold SaysMissing
  rw [String.toList_append, hrest, Text.occursIn_append_cons hc, hn, Bool.or_eq_true]

/-- The phrase does not reach over a text that ends in a character it does not have. -/
theorem append_of_last {c : Char} {before : String} (hbefore : before.toList.getLast? = some c)
    (hc : c ∉ "no such key".toList) (text : String) :
    SaysMissing (before ++ text) ↔ SaysMissing before ∨ SaysMissing text := by
  obtain ⟨start, hstart⟩ := List.getLast?_eq_some_iff.mp hbefore
  unfold SaysMissing
  rw [String.toList_append, hstart, List.append_assoc, List.singleton_append,
    Text.occursIn_append_cons hc, Text.occursIn_append_cons hc, Bool.or_eq_true, Bool.or_eq_true]
  exact or_congr_left (or_iff_left (by decide)).symm

/-- The phrase begins with an n. -/
theorem append_of_not_mem (before : String) (h : 'n' ∉ before.toList) (text : String) :
    SaysMissing (before ++ text) ↔ SaysMissing text := by
  unfold SaysMissing
  rw [String.toList_append]
  exact Bool.eq_iff_iff.mp (Text.occursIn_append_of_not_mem h text.toList)

theorem mem {text : String} (h : SaysMissing text) {c : Char} (hc : c ∈ "no such key".toList) :
    c ∈ text.toList := by
  refine Decidable.byContradiction fun hmem => ?_
  rw [SaysMissing, Text.occursIn_of_not_mem hc hmem] at h
  cases h

/-- The phrase does not reach over a comma. -/
theorem intercalate {texts : List String} :
    SaysMissing (", ".intercalate texts) ↔ ∃ text ∈ texts, SaysMissing text := by
  induction texts with
  | nil => simp [SaysMissing, Text.occursIn]
  | cons text rest ih =>
    cases rest with
    | nil => simp
    | cons next rest =>
      rw [String.intercalate_cons_cons, String.append_assoc,
        append (c := ',') (by simp) (by decide), append_of_not_mem ", " (by decide), ih]
      simp

end SaysMissing

/-! ## Numbers -/

namespace Binary64

theorem digit_of_mem_toString {n : Nat} {c : Char} (h : c ∈ (toString n).toList) : c.isDigit := by
  rw [Nat.toString_eq_repr, Nat.toList_repr] at h
  exact Nat.isDigit_of_mem_toDigits (by decide) (by decide) h

theorem k_not_mem_toString (n : Nat) : 'k' ∉ (toString n).toList :=
  fun h => absurd (digit_of_mem_toString h) (by decide)

theorem k_not_mem_zeros (count : Nat) : 'k' ∉ (zeros count).toList := by
  rw [zeros, String.toList_ofList]
  exact fun h => absurd (List.eq_of_mem_replicate h) (by decide)

theorem k_not_mem_positional (d : Digits) : 'k' ∉ (positional d "").toList := by
  have hdigits := k_not_mem_toString d.digits
  unfold positional
  dsimp only
  split
  · simp only [String.toList_append, List.mem_append, not_or]
    exact ⟨⟨by decide, k_not_mem_zeros _⟩, hdigits⟩
  · split
    · simp only [String.toList_append, List.mem_append, not_or]
      exact ⟨⟨hdigits, k_not_mem_zeros _⟩, by decide⟩
    · simp only [String.toList_append, String.toList_ofList, List.mem_append, not_or]
      exact ⟨⟨fun h => hdigits (List.mem_of_mem_take h), by decide⟩,
        fun h => hdigits (List.mem_of_mem_drop h)⟩

theorem k_not_mem_plain (n : Binary64) : 'k' ∉ n.plain.toList := by
  unfold plain Layout.text
  split
  · decide
  · split <;> decide
  · rw [String.toList_append, List.mem_append, not_or]
    refine ⟨by split <;> decide, ?_⟩
    unfold Layout.magnitude
    exact k_not_mem_positional _

theorem k_not_mem_display (n : Binary64) : 'k' ∉ n.display.toList := by
  unfold display
  split
  · split
    · rename_i i _ _
      rw [Int.toString_eq_repr, Int.repr_eq_if]
      split
      · exact k_not_mem_toString _
      · rw [String.toList_append, List.mem_append, not_or]
        exact ⟨by decide, k_not_mem_toString _⟩
    · exact k_not_mem_plain n
  · exact k_not_mem_plain n

end Binary64

/-! ## Messages -/

namespace Cause

/-- No space stands in a name that the message of an undeclared reference quotes. -/
theorem undeclaredReference_saysMissing {name : String} (h : ' ' ∉ name.toList) :
    ¬ SaysMissing (undeclaredReference name).message := by
  intro hphrase
  change SaysMissing ("undeclared reference to '" ++ name ++ "'") at hphrase
  rw [SaysMissing.append rfl (by decide), SaysMissing.append_of_last rfl (by decide)] at hphrase
  rcases hphrase with (hphrase | hphrase) | hphrase
  · exact absurd hphrase (by decide +kernel)
  · exact h (hphrase.mem (by decide))
  · exact absurd hphrase (by decide +kernel)

theorem noSuchOverload_saysMissing {function : String} {types : List String}
    (hfunction : ¬ SaysMissing ("no such overload: " ++ function))
    (htypes : ∀ type ∈ types, ¬ SaysMissing type) :
    ¬ SaysMissing (noSuchOverload function types).message := by
  intro hphrase
  change SaysMissing ("no such overload: " ++ function ++ "(" ++ ", ".intercalate types ++ ")")
    at hphrase
  rw [SaysMissing.append rfl (by decide), String.append_assoc,
    SaysMissing.append (by simp) (by decide : '(' ∉ _),
    SaysMissing.append_of_not_mem "(" (by decide), SaysMissing.intercalate] at hphrase
  rcases hphrase with (hphrase | ⟨type, hmem, hphrase⟩) | hphrase
  · exact hfunction hphrase
  · exact htypes type hmem hphrase
  · exact absurd hphrase (by decide +kernel)

theorem unexpected_saysMissing {expected got : String}
    (hexpected : ¬ SaysMissing ("expected " ++ expected)) (hgot : ¬ SaysMissing got) :
    ¬ SaysMissing (unexpected expected got).message := by
  intro hphrase
  change SaysMissing ("expected " ++ expected ++ ", got " ++ got) at hphrase
  rw [String.append_assoc, SaysMissing.append (by simp) (by decide : ',' ∉ _),
    SaysMissing.append_of_not_mem ", got " (by decide)] at hphrase
  exact hphrase.elim hexpected hgot

theorem conversion_saysMissing {source target : String} (hsource : ¬ SaysMissing source)
    (htarget : ¬ SaysMissing target) : ¬ SaysMissing (conversion source target).message := by
  intro hphrase
  change SaysMissing ("type conversion error from '" ++ source ++ "' to '" ++ target ++ "'")
    at hphrase
  rw [SaysMissing.append rfl (by decide), String.append_assoc,
    SaysMissing.append (by simp) (by decide : '\'' ∉ _),
    SaysMissing.append_of_last rfl (by decide),
    SaysMissing.append_of_last rfl (by decide)] at hphrase
  rcases hphrase with ((hphrase | hphrase) | hphrase | hphrase) | hphrase
  · exact absurd hphrase (by decide +kernel)
  · exact hsource hphrase
  · exact absurd hphrase (by decide +kernel)
  · exact htarget hphrase
  · exact absurd hphrase (by decide +kernel)

/-- A fragment that is not there is named at the end of the message. -/
theorem fragmentNotFound_saysMissing {name : String} :
    SaysMissing (fragmentNotFound name).message ↔ SaysMissing name := by
  have hsplit : (fragmentNotFound name).message = "fragment not found:" ++ (" " ++ name) := by
    rw [← String.append_assoc]
    rfl
  rw [hsplit, SaysMissing.append_of_last rfl (by decide),
    SaysMissing.append_of_not_mem " " (by decide)]
  exact or_iff_right (by decide +kernel)

/-- Words without a k do not add up to the phrase, and no numeral has one. -/
theorem saysMissing_of_k_not_mem {cause : Cause} (h : 'k' ∉ cause.message.toList) :
    ¬ SaysMissing cause.message := fun hphrase => h (hphrase.mem (by decide))

theorem missingPosition_saysMissing (position : Nat) :
    ¬ SaysMissing (missingPosition position).message := by
  apply saysMissing_of_k_not_mem
  change 'k' ∉ ("missing required argument at position " ++ toString position).toList
  rw [String.toList_append, List.mem_append, not_or]
  exact ⟨by decide, Binary64.k_not_mem_toString position⟩

theorem indexOutOfRange_saysMissing (index : Binary64) (length : Nat) :
    ¬ SaysMissing (indexOutOfRange index length).message := by
  apply saysMissing_of_k_not_mem
  change 'k' ∉ ("index out of range: " ++ index.plain ++ " (length " ++ toString length ++
    ")").toList
  simp only [String.toList_append, List.mem_append, not_or]
  exact ⟨⟨⟨⟨by decide, index.k_not_mem_plain⟩, by decide⟩, Binary64.k_not_mem_toString length⟩,
    by decide⟩

theorem sliceOutOfRange_saysMissing (start stop length : Nat) :
    ¬ SaysMissing (sliceOutOfRange start stop length).message := by
  apply saysMissing_of_k_not_mem
  change 'k' ∉ ("cannot slice(" ++ toString start ++ ", " ++ toString stop ++
    ") a list of length " ++ toString length).toList
  simp only [String.toList_append, List.mem_append, not_or]
  exact ⟨⟨⟨⟨⟨by decide, Binary64.k_not_mem_toString start⟩, by decide⟩,
    Binary64.k_not_mem_toString stop⟩, by decide⟩, Binary64.k_not_mem_toString length⟩

/-- The message has the phrase of a missing key because the name of a fragment has. -/
def Misleading : Cause → Prop
  | fragmentNotFound name => SaysMissing name
  | _ => False

/-- **What the engine raises has the phrase of a missing key in its message only if a key is
missing**, or a fragment whose name has the phrase. -/
theorem Raised.message_saysMissing {P : Value → Prop}
    (htypes : ∀ v, P v → ¬ SaysMissing v.typeName)
    {cause : Cause} (h : cause.Raised P) (hphrase : SaysMissing cause.message) :
    cause.kind = .noSuchKey ∨ cause.Misleading := by
  have hrefusing : ∀ name ∈ refusing, ¬ SaysMissing ("no such overload: " ++ name) := by
    decide +kernel
  have hexpectations : ∀ expected ∈ expectations, ¬ SaysMissing ("expected " ++ expected) := by
    decide +kernel
  have htargets : ∀ target ∈ targets, ¬ SaysMissing target := by decide +kernel
  have hparameters : ∀ role ∈ ["argument", "receiver"], ∀ name ∈ parameters,
      ¬ SaysMissing (Cause.missingParameter role name).message := by decide +kernel
  cases h with
  | noSuchKey => exact .inl rfl
  | fragmentNotFound => exact .inr (fragmentNotFound_saysMissing.mp hphrase)
  | refused values hname hvalues =>
    refine absurd hphrase (noSuchOverload_saysMissing (hrefusing _ hname) fun type htype => ?_)
    obtain ⟨v, hv, rfl⟩ := List.mem_map.mp htype
    exact htypes v (hvalues v hv)
  | unexpected hexpected hv =>
    exact absurd hphrase (unexpected_saysMissing (hexpectations _ hexpected) (htypes _ hv))
  | fractionalIndex n =>
    exact absurd hphrase (unexpected_saysMissing (by decide +kernel)
      fun hphrase => n.k_not_mem_display (hphrase.mem (by decide)))
  | missingPosition position => exact absurd hphrase (missingPosition_saysMissing position)
  | missingParameter hrole hname => exact absurd hphrase (hparameters _ hrole _ hname)
  | indexOutOfRange index length => exact absurd hphrase (indexOutOfRange_saysMissing index length)
  | sliceOutOfRange start stop length =>
    exact absurd hphrase (sliceOutOfRange_saysMissing start stop length)
  | conversion hv htarget =>
    exact absurd hphrase (conversion_saysMissing (htypes _ hv) (htargets _ htarget))
  | noFragmentName | divisionByZero | modulusByZero | emptyList =>
    exact absurd hphrase (by decide +kernel)

end Cause

end JsonTemplate
