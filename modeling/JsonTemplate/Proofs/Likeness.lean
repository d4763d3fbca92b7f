/-
Values that are alike up to their objects: `R` tells which object of the one stands for which of
the other. Steps agree if they give related values or are stopped by the same (`Agree`), and entries
are related key by key (`Entries.Related`).
-/
import JsonTemplate.Proofs.Outcome
import JsonTemplate.Value.Access
import JsonTemplate.Value.Json
import Mathlib.Data.List.Forall2

namespace JsonTemplate

/-- Two steps agree if they give values that `P` relates or are stopped by the same. -/
inductive Agree {ε α β : Type} (P : α → β → Prop) : Except ε α → Except ε β → Prop
  | ok {a b} : P a b → Agree P (.ok a) (.ok b)
  | error (e) : Agree P (.error e) (.error e)

/-- Entries with the same keys in the same order and values that `P` relates. -/
inductive Entries.Related {α β : Type} (P : α → β → Prop) : Entries α → Entries β → Prop
  | nil : Related P [] []
  | cons (key) {a b rest rest'} : P a b → Related P rest rest' →
    Related P ((key, a) :: rest) ((key, b) :: rest')

/-- Values that differ at most in their objects, and these as `R` says. -/
inductive Value.Like (R : Origin → Origin → Prop) : Value → Value → Prop
  | null : Like R .null .null
  | bool (b) : Like R (.bool b) (.bool b)
  | number (n) : Like R (.number n) (.number n)
  | string (s) : Like R (.string s) (.string s)
  | list {items items'} : List.Forall₂ (Like R) items items' → Like R (.list items) (.list items')
  | map {entries entries'} : Entries.Related (Like R) entries entries' →
    Like R (.map entries) (.map entries')
  | record {a b entries entries'} : R a b → Entries.Related (Like R) entries entries' →
    Like R (.record a entries) (.record b entries')
  | host {a b type get get' contains keys keys' size} : R a b →
    (∀ key, Agree (Like R) (get key) (get' key)) → List.Forall₂ (Like R) keys keys' →
    Like R (.host a type get contains keys size) (.host b type get' contains keys' size)

/-! ## Steps -/

namespace Agree

variable {ε α β α' β' : Type} {P : α → β → Prop} {P' : α' → β' → Prop}

theorem bind {x : Except ε α} {y : Except ε β} {f : α → Except ε α'} {g : β → Except ε β'}
    (h : Agree P x y) (hfg : ∀ a b, P a b → Agree P' (f a) (g b)) :
    Agree P' (x >>= f) (y >>= g) := by
  cases h with
  | ok hab => exact hfg _ _ hab
  | error e => exact .error e

/-- After the same step the rest decides. -/
theorem bind_same {γ : Type} {x : Except ε γ} {f : γ → Except ε α} {g : γ → Except ε β}
    (h : ∀ c, Agree P (f c) (g c)) : Agree P (x >>= f) (x >>= g) := by
  cases x with
  | ok c => exact h c
  | error e => exact .error e

theorem mono {P' : α → β → Prop} {x : Except ε α} {y : Except ε β} (h : Agree P x y)
    (hP : ∀ a b, P a b → P' a b) : Agree P' x y := by
  cases h with
  | ok hab => exact .ok (hP _ _ hab)
  | error e => exact .error e

/-- A step agrees with itself on what relates every value to itself. -/
theorem same {P : α → α → Prop} (x : Except ε α) (hP : ∀ a, P a a) : Agree P x x := by
  cases x with
  | ok a => exact .ok (hP a)
  | error e => exact .error e

/-- What agrees with a value is a value. -/
theorem of_ok {a : α} {y : Except ε β} (h : Agree P (.ok a) y) : ∃ b, y = .ok b ∧ P a b := by
  cases h with
  | ok hab => exact ⟨_, rfl, hab⟩

theorem of_error {e : ε} {y : Except ε β} (h : Agree P (.error e) y) : y = .error e := by
  cases h with
  | error e => rfl

theorem ok_or_error {x : Except ε α} {y : Except ε β} (h : Agree P x y) :
    (∃ a b, x = .ok a ∧ y = .ok b ∧ P a b) ∨ ∃ e, x = .error e ∧ y = .error e := by
  cases h with
  | ok hab => exact .inl ⟨_, _, rfl, rfl, hab⟩
  | error e => exact .inr ⟨e, rfl, rfl⟩

theorem eq {x y : Except ε α} (h : Agree Eq x y) : x = y := by
  cases h with
  | ok hab => rw [hab]
  | error e => rfl

theorem ofResult {x : Except Failure α} {y : Except Failure β} (h : Agree P x y) :
    Agree P (Outcome.ofResult x) (Outcome.ofResult y) := by
  cases h with
  | ok hab => exact .ok hab
  | error f => exact .error _

theorem located {x : Outcome α} {y : Outcome β} (span : Span) (h : Agree P x y) :
    Agree P (Outcome.located span x) (Outcome.located span y) := by
  cases h with
  | ok hab => exact .ok hab
  | error i => exact .error _

end Agree

/-! ## Entries -/

namespace Entries.Related

variable {α β : Type} {P : α → β → Prop} {entries : Entries α} {entries' : Entries β}

theorem get? (h : Related P entries entries') (key : String) :
    Option.Rel P (entries.get? key) (entries'.get? key) := by
  induction h with
  | nil => exact .none
  | cons k hab _ ih =>
    simp only [Entries.get?]
    split
    · exact .some hab
    · exact ih

theorem keys (h : Related P entries entries') : entries.keys = entries'.keys := by
  induction h with
  | nil => rfl
  | cons k _ _ ih => exact congrArg (k :: ·) ih

theorem length (h : Related P entries entries') : entries.length = entries'.length := by
  have hkeys := congrArg List.length h.keys
  simpa [Entries.keys] using hkeys

theorem contains (h : Related P entries entries') : entries.contains = entries'.contains := by
  funext key
  exact Entries.contains_congr (by rw [h.keys])

theorem insert (h : Related P entries entries') (key : String) {a : α} {b : β} (hab : P a b) :
    Related P (entries.insert key a) (entries'.insert key b) := by
  induction h with
  | nil => exact .cons key hab .nil
  | cons k hcd hrest ih =>
    simp only [Entries.insert]
    split
    · exact .cons k hab hrest
    · exact .cons k hcd ih

theorem insertAll {pairs : Entries α} {pairs' : Entries β} (hpairs : Related P pairs pairs')
    (h : Related P entries entries') :
    Related P (entries.insertAll pairs) (entries'.insertAll pairs') := by
  induction hpairs generalizing entries entries' with
  | nil => exact h
  | cons key hab _ ih => exact ih (h.insert key hab)

theorem ofPairs (h : Related P entries entries') :
    Related P (Entries.ofPairs entries) (Entries.ofPairs entries') := h.insertAll .nil

end Entries.Related

namespace Value

/-- No two objects are mistaken for each other. -/
def Faithful (R : Origin → Origin → Prop) : Prop :=
  ∀ a a' b b', R a a' → R b b' → (a = b ↔ a' = b')

variable {R : Origin → Origin → Prop}

theorem Faithful.beq (hR : Faithful R) {a a' b b' : Origin} (ha : R a a') (hb : R b b') :
    (a == b) = (a' == b') := by
  have hiff := hR a a' b b' ha hb
  rw [Bool.eq_iff_iff, beq_iff_eq, beq_iff_eq]
  exact hiff

theorem forall₂_getElem? {α β : Type} {P : α → β → Prop} {items : List α} {items' : List β}
    (h : List.Forall₂ P items items') (i : Nat) : Option.Rel P items[i]? items'[i]? := by
  induction h generalizing i with
  | nil => exact .none
  | cons hab _ ih =>
    cases i with
    | zero => exact .some hab
    | succ i => exact ih i

mutual

/-- More objects may stand for each other. -/
theorem Like.mono {R' : Origin → Origin → Prop} (hR : ∀ a b, R a b → R' a b) :
    ∀ {v v' : Value}, Like R v v' → Like R' v v'
  | .null, _, h => by cases h; exact .null
  | .bool _, _, h => by cases h; exact .bool _
  | .number _, _, h => by cases h; exact .number _
  | .string _, _, h => by cases h; exact .string _
  | .list _, _, h => by
    cases h with
    | list hitems => exact .list (Like.mono_items hR hitems)
  | .map _, _, h => by
    cases h with
    | map hentries => exact .map (Like.mono_entries hR hentries)
  | .record _ _, _, h => by
    cases h with
    | record hab hentries => exact .record (hR _ _ hab) (Like.mono_entries hR hentries)
  | .host _ _ get _ _ _, _, h => by
    cases h with
    | host hab hget hkeys =>
      exact .host (hR _ _ hab) (fun key => Like.mono_result hR (hget key))
        (Like.mono_items hR hkeys)
termination_by structural v => v

theorem Like.mono_result {R' : Origin → Origin → Prop} (hR : ∀ a b, R a b → R' a b) :
    ∀ {x x' : Except Failure Value}, Agree (Like R) x x' → Agree (Like R') x x'
  | .error _, _, h => by cases h; exact .error _
  | .ok _, _, h => by
    cases h with
    | ok hv => exact .ok (Like.mono hR hv)
termination_by structural x => x

theorem Like.mono_items {R' : Origin → Origin → Prop} (hR : ∀ a b, R a b → R' a b) :
    ∀ {items items' : List Value}, List.Forall₂ (Like R) items items' →
      List.Forall₂ (Like R') items items'
  | [], _, h => by cases h; exact .nil
  | _ :: _, _, h => by
    cases h with
    | cons hv hrest => exact .cons (Like.mono hR hv) (Like.mono_items hR hrest)
termination_by structural items => items

theorem Like.mono_entries {R' : Origin → Origin → Prop} (hR : ∀ a b, R a b → R' a b) :
    ∀ {entries entries' : List (String × Value)}, Entries.Related (Like R) entries entries' →
      Entries.Related (Like R') entries entries'
  | [], _, h => by cases h; exact .nil
  | (_, _) :: _, _, h => by
    cases h with
    | cons _ hv hrest => exact .cons _ (Like.mono hR hv) (Like.mono_entries hR hrest)
termination_by structural entries => entries

end

mutual

/-- What stands for what may be told the other way around. -/
theorem Like.symm : ∀ {v v' : Value}, Like R v v' → Like (fun a b => R b a) v' v
  | .null, _, h => by cases h; exact .null
  | .bool _, _, h => by cases h; exact .bool _
  | .number _, _, h => by cases h; exact .number _
  | .string _, _, h => by cases h; exact .string _
  | .list _, _, h => by
    cases h with
    | list hitems => exact .list (Like.symm_items hitems)
  | .map _, _, h => by
    cases h with
    | map hentries => exact .map (Like.symm_entries hentries)
  | .record _ _, _, h => by
    cases h with
    | record hab hentries => exact .record hab (Like.symm_entries hentries)
  | .host _ _ get _ _ _, _, h => by
    cases h with
    | host hab hget hkeys =>
      exact .host hab (fun key => Like.symm_result (hget key)) (Like.symm_items hkeys)
termination_by structural v => v

theorem Like.symm_result : ∀ {x x' : Except Failure Value}, Agree (Like R) x x' →
    Agree (Like fun a b => R b a) x' x
  | .error _, _, h => by cases h; exact .error _
  | .ok _, _, h => by
    cases h with
    | ok hv => exact .ok (Like.symm hv)
termination_by structural x => x

theorem Like.symm_items : ∀ {items items' : List Value}, List.Forall₂ (Like R) items items' →
    List.Forall₂ (Like fun a b => R b a) items' items
  | [], _, h => by cases h; exact .nil
  | _ :: _, _, h => by
    cases h with
    | cons hv hrest => exact .cons (Like.symm hv) (Like.symm_items hrest)
termination_by structural items => items

theorem Like.symm_entries : ∀ {entries entries' : List (String × Value)},
    Entries.Related (Like R) entries entries' →
      Entries.Related (Like fun a b => R b a) entries' entries
  | [], _, h => by cases h; exact .nil
  | (_, _) :: _, _, h => by
    cases h with
    | cons _ hv hrest => exact .cons _ (Like.symm hv) (Like.symm_entries hrest)
termination_by structural entries => entries

end

mutual

/-- A value is the same as one that is like it if only the objects that it has itself stand for
them. -/
theorem Like.eq_of_fixed {S : Origin → Origin → Prop} (hR : ∀ a b, R a b → S a a → a = b) :
    ∀ {v v' : Value}, Like R v v' → Like S v v → v = v'
  | .null, _, h, _ => by cases h; rfl
  | .bool _, _, h, _ => by cases h; rfl
  | .number _, _, h, _ => by cases h; rfl
  | .string _, _, h, _ => by cases h; rfl
  | .list _, _, h, hv => by
    cases h with
    | list hitems =>
      cases hv with
      | list hfixed => rw [Like.eq_of_fixed_items hR hitems hfixed]
  | .map _, _, h, hv => by
    cases h with
    | map hentries =>
      cases hv with
      | map hfixed => rw [Like.eq_of_fixed_entries hR hentries hfixed]
  | .record _ _, _, h, hv => by
    cases h with
    | record hab hentries =>
      cases hv with
      | record ha hfixed => rw [hR _ _ hab ha, Like.eq_of_fixed_entries hR hentries hfixed]
  | .host _ _ get _ _ _, _, h, hv => by
    cases h with
    | host hab hget hkeys =>
      cases hv with
      | host ha hgetFixed hkeysFixed =>
        rw [hR _ _ hab ha, Like.eq_of_fixed_items hR hkeys hkeysFixed,
          funext fun key => Like.eq_of_fixed_result hR (hget key) (hgetFixed key)]
termination_by structural v => v

theorem Like.eq_of_fixed_result {S : Origin → Origin → Prop}
    (hR : ∀ a b, R a b → S a a → a = b) : ∀ {x x' : Except Failure Value},
      Agree (Like R) x x' → Agree (Like S) x x → x = x'
  | .error _, _, h, _ => by cases h; rfl
  | .ok _, _, h, hx => by
    cases h with
    | ok hv =>
      cases hx with
      | ok hfixed => rw [Like.eq_of_fixed hR hv hfixed]
termination_by structural x => x

theorem Like.eq_of_fixed_items {S : Origin → Origin → Prop} (hR : ∀ a b, R a b → S a a → a = b) :
    ∀ {items items' : List Value}, List.Forall₂ (Like R) items items' →
      List.Forall₂ (Like S) items items → items = items'
  | [], _, h, _ => by cases h; rfl
  | _ :: _, _, h, hitems => by
    cases h with
    | cons hv hrest =>
      cases hitems with
      | cons hfixed hrestFixed =>
        rw [Like.eq_of_fixed hR hv hfixed, Like.eq_of_fixed_items hR hrest hrestFixed]
termination_by structural items => items

theorem Like.eq_of_fixed_entries {S : Origin → Origin → Prop}
    (hR : ∀ a b, R a b → S a a → a = b) : ∀ {entries entries' : List (String × Value)},
      Entries.Related (Like R) entries entries' → Entries.Related (Like S) entries entries →
        entries = entries'
  | [], _, h, _ => by cases h; rfl
  | (_, _) :: _, _, h, hentries => by
    cases h with
    | cons _ hv hrest =>
      cases hentries with
      | cons _ hfixed hrestFixed =>
        rw [Like.eq_of_fixed hR hv hfixed, Like.eq_of_fixed_entries hR hrest hrestFixed]
termination_by structural entries => entries

end

/-- The same steps on related items. -/
theorem mapM_congr {ε α β γ : Type} {P : α → β → Prop} {f : α → Except ε γ} {g : β → Except ε γ}
    {items : List α} {items' : List β} (h : List.Forall₂ P items items')
    (hfg : ∀ a b, P a b → f a = g b) : items.mapM f = items'.mapM g := by
  induction h with
  | nil => rfl
  | cons hab _ ih => rw [List.mapM_cons, List.mapM_cons, hfg _ _ hab, ih]

/-- What an object answers that its type allows to be asked, or the failure of any other value. -/
def answer {α : Type} (allows : Traits → Bool) (f : Face → Except Failure α) (e : Failure)
    (v : Value) : Except Failure α :=
  match v.allowing? allows with
  | some face => f face
  | none => .error e

end Value

end JsonTemplate
