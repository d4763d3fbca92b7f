/-
Keys. A string, a boolean or a whole number stands for its text wherever a key is asked for: as an
index, as a member, as a key of a map literal. The field of a selection is its own text. So all ways
of asking a map or a record for a key are one lookup, and they refuse the same values
(`ways_of_asking_agree`).
-/
import JsonTemplate.Proofs.Records

namespace JsonTemplate

/-! ## Values as keys -/

namespace Value

/-- What may be a key: a string, a boolean or a whole number. -/
inductive IsKey : Value → Prop
  | string (s : String) : IsKey (.string s)
  | bool (b : Bool) : IsKey (.bool b)
  | number {n : Binary64} (h : n.isWhole = true) : IsKey (.number n)

theorem mapKey_of_isKey {key : Value} (h : key.IsKey) : key.mapKey = .ok key.display := by
  cases h with
  | string s => rfl
  | bool b => rfl
  | number h => exact if_pos h

theorem mapKey_of_not_isKey {key : Value} (h : ¬ key.IsKey) :
    key.mapKey = .error (.of (.unexpected "string key" key.typeName)) := by
  cases key with
  | string s => exact absurd (.string s) h
  | bool b => exact absurd (.bool b) h
  | number n => exact if_neg fun hwhole => h (.number hwhole)
  | _ => rfl

theorem mapKey_eq_ok {key : Value} {text : String} :
    key.mapKey = .ok text ↔ key.IsKey ∧ text = key.display := by
  by_cases h : key.IsKey
  · simp [mapKey_of_isKey h, h, eq_comm]
  · simp [mapKey_of_not_isKey h, h]

/-- A key's text is what `string` makes of it. -/
theorem string_of_isKey {key : Value} (h : key.IsKey) :
    Standard.string none [key] = .ok (.string key.display) := by
  cases h <;> rfl

/-- A map or a record of these entries. -/
inductive Keyed (entries : Entries Value) : Value → Prop
  | map : Keyed entries (.map entries)
  | record (made : Origin) : Keyed entries (.record made entries)

section Keyed

variable {entries : Entries Value} {container : Value} (h : container.Keyed entries)
include h

theorem Keyed.select (field : String) : container.select field = getKey entries field := by
  cases h with
  | map => rfl
  | record made => exact select_record made entries field

theorem Keyed.index (key : Value) :
    container.index key = (do getKey entries (← key.mapKey)) := by
  cases h with
  | map => rfl
  | record made => exact index_record made entries key

theorem Keyed.hasField (field : String) :
    container.hasField field = .ok (entries.contains field) := by
  cases h <;> rfl

theorem Keyed.contains (key : Value) :
    container.contains key = (do return entries.contains (← key.mapKey)) := by
  cases h <;> rfl

end Keyed

end Value

/-- What comes of looking up a key at `span`. -/
def Entries.lookup (entries : Entries Value) (span : Span) (key : String) : Outcome Value :=
  match entries.get? key with
  | some value => .ok value
  | none => .error (.failed ((Failure.of (.noSuchKey key)).withSpan span))

/-- A value that is no key, asked for as one at `span`. -/
def Value.refusedKey (key : Value) (span : Span) : Outcome α :=
  .error (.failed ((Failure.of (.unexpected "string key" key.typeName)).withSpan span))

theorem located_getKey (entries : Entries Value) (span : Span) (key : String) :
    Outcome.located span (.ofResult (Value.getKey entries key)) = entries.lookup span key := by
  unfold Value.getKey Entries.lookup
  cases entries.get? key <;> rfl

/-- A key is there exactly if looking it up gives a value. -/
theorem Entries.contains_iff_lookup {entries : Entries Value} {span : Span} {key : String} :
    entries.contains key = true ↔ ∃ value, entries.lookup span key = .ok value := by
  unfold Entries.contains Entries.lookup
  cases entries.get? key <;> simp

theorem Entries.lookup_of_not_contains {entries : Entries Value} {key : String}
    (h : entries.contains key = false) (span : Span) :
    entries.lookup span key = .error (.failed ((Failure.of (.noSuchKey key)).withSpan span)) := by
  rw [Entries.contains, Option.isSome_eq_false_iff, Option.isNone_iff_eq_none] at h
  rw [Entries.lookup, h]

namespace Expr

/-- `string(e)` -/
def text (span : Span) (e : Expr) : Expr := .call span none "string" [e]

section Eval

variable (env : Environment) (context : Context)

/-- The expression stands for the value, wherever it is evaluated. -/
def Gives (e : Expr) (v : Value) : Prop := ∀ origin, e.eval env origin context = .ok v

/-- The keys and values of a map literal, each evaluated at its place. -/
inductive Pairs (origin : Origin) : Nat → List (Expr × Expr) → List (Value × Value) → Prop
  | nil (part : Nat) : Pairs origin part [] []
  | cons {part : Nat} {k e : Expr} {rest : List (Expr × Expr)} {key value : Value}
      {pairs : List (Value × Value)} (hkey : k.eval env (origin.child part) context = .ok key)
      (hvalue : e.eval env (origin.child (part + 1)) context = .ok value)
      (hrest : Pairs origin (part + 2) rest pairs) :
      Pairs origin part ((k, e) :: rest) ((key, value) :: pairs)

variable {env context}

theorem gives_text (hstring : env.functions.get? "string" =
      some (Standard.onAny "string" Standard.string)) {k : Expr} {key : Value}
    (hk : k.Gives env context key) (h : key.IsKey) (span : Span) :
    (k.text span).Gives env context (.string key.display) := by
  intro origin
  have haccepts :
      (Standard.onAny "string" Standard.string).signature.accepts none [key] = true := by
    rfl
  simp only [text, eval, evalOptional, evalItems, hk _, ok_bind, pure_eq_ok, Environment.call,
    hstring, haccepts, if_true]
  exact congrArg (Outcome.located span) (Value.string_of_isKey h)

section Container

variable {entries : Entries Value} {container : Value} (hcontainer : container.Keyed entries)
  {m : Expr} (hm : m.Gives env context container)
include hcontainer hm

theorem eval_select_of_keyed (span : Span) (field : String) (origin : Origin) :
    (select span m field).eval env origin context = entries.lookup span field := by
  rw [eval, hm, ok_bind, hcontainer.select, located_getKey]

theorem eval_has_of_keyed (span : Span) (field : String) (origin : Origin) :
    (has span m field).eval env origin context = .ok (.bool (entries.contains field)) := by
  rw [eval, hm, ok_bind, hcontainer.hasField]
  rfl

variable {k : Expr} {key : Value} (hk : k.Gives env context key)
include hk

theorem eval_index_of_isKey (h : key.IsKey) (span : Span) (origin : Origin) :
    (index span m k).eval env origin context = entries.lookup span key.display := by
  rw [eval, hm, ok_bind, hk, ok_bind, hcontainer.index, Value.mapKey_of_isKey h, ok_bind,
    located_getKey]

theorem eval_index_of_not_isKey (h : ¬ key.IsKey) (span : Span) (origin : Origin) :
    (index span m k).eval env origin context = key.refusedKey span := by
  rw [eval, hm, ok_bind, hk, ok_bind, hcontainer.index, Value.mapKey_of_not_isKey h]
  rfl

theorem eval_mem_of_isKey (h : key.IsKey) (span : Span) (origin : Origin) :
    (binary span .mem k m).eval env origin context =
      .ok (.bool (entries.contains key.display)) := by
  simp only [eval, BinaryOp.outcome, BinaryOp.decisive?, BinaryOp.apply, hm _, hk _, ok_bind,
    hcontainer.contains, Value.mapKey_of_isKey h]
  rfl

theorem eval_mem_of_not_isKey (h : ¬ key.IsKey) (span : Span) (origin : Origin) :
    (binary span .mem k m).eval env origin context = key.refusedKey span := by
  simp only [eval, BinaryOp.outcome, BinaryOp.decisive?, BinaryOp.apply, hm _, hk _, ok_bind,
    hcontainer.contains, Value.mapKey_of_not_isKey h]
  rfl

end Container

/-! ## Map literals -/

variable {k : Expr} {key : Value}

theorem eval_dict_of_not_isKey (hk : k.Gives env context key) (h : ¬ key.IsKey) (span : Span)
    (e : Expr) (rest : List (Expr × Expr)) (origin : Origin) :
    (dict span ((k, e) :: rest)).eval env origin context = key.refusedKey span := by
  rw [eval, evalEntries, hk, ok_bind, Value.mapKey_of_not_isKey h]
  rfl

/-- Keys of one text make the same literal. -/
theorem eval_dict_congr {k' : Expr} {key' : Value} (hk : k.Gives env context key)
    (hk' : k'.Gives env context key') (h : key.mapKey = key'.mapKey) (span : Span) (e : Expr)
    (rest : List (Expr × Expr)) (origin : Origin) :
    (dict span ((k, e) :: rest)).eval env origin context =
      (dict span ((k', e) :: rest)).eval env origin context := by
  simp only [eval, evalEntries, hk _, hk' _, ok_bind, h]

/-- The pairs of a map literal under the texts of their keys. -/
def texts (pairs : List (Value × Value)) : List (String × Value) :=
  pairs.map fun pair => (pair.1.display, pair.2)

/-- The entries have values exactly if their keys and values have, and each key may be one. -/
theorem evalEntries_eq_ok {origin : Origin} : ∀ {part : Nat} {entries : List (Expr × Expr)}
    {named : List (String × Value)}, evalEntries env entries origin part context = .ok named ↔
      ∃ pairs, Pairs env context origin part entries pairs ∧ (∀ pair ∈ pairs, pair.1.IsKey) ∧
        named = texts pairs
  | part, [], named => by
    constructor
    · intro h
      cases h
      exact ⟨[], .nil part, nofun, rfl⟩
    · rintro ⟨pairs, ⟨⟩, -, rfl⟩
      rfl
  | part, (k, e) :: rest, named => by
    simp only [evalEntries, bind_eq_ok]
    constructor
    · rintro ⟨key, hkey, text, htext, value, hvalue, others, hothers, h⟩
      cases h
      obtain ⟨pairs, hpairs, hkeys, rfl⟩ := evalEntries_eq_ok.mp hothers
      cases hmap : key.mapKey with
      | error f => rw [hmap] at htext; cases htext
      | ok text' =>
        rw [hmap] at htext
        cases htext
        obtain ⟨hisKey, rfl⟩ := Value.mapKey_eq_ok.mp hmap
        exact ⟨(key, value) :: pairs, .cons hkey hvalue hpairs,
          List.forall_mem_cons.mpr ⟨hisKey, hkeys⟩, rfl⟩
    · rintro ⟨_, _ | ⟨hkey, hvalue, hpairs⟩, hkeys, rfl⟩
      rw [List.forall_mem_cons] at hkeys
      refine ⟨_, hkey, _, ?_, _, hvalue, _, evalEntries_eq_ok.mpr ⟨_, hpairs, hkeys.2, rfl⟩, rfl⟩
      rw [Value.mapKey_of_isKey hkeys.1]
      rfl

theorem eval_dict_eq_ok {span : Span} {entries : List (Expr × Expr)} {origin : Origin}
    {value : Value} : (dict span entries).eval env origin context = .ok value ↔
      ∃ pairs, Pairs env context origin 0 entries pairs ∧ (∀ pair ∈ pairs, pair.1.IsKey) ∧
        value = .ofMap (texts pairs) := by
  rw [eval]
  cases h : evalEntries env entries origin 0 context with
  | error i =>
    refine ⟨nofun, ?_⟩
    rintro ⟨pairs, hpairs, hkeys, -⟩
    rw [evalEntries_eq_ok.mpr ⟨pairs, hpairs, hkeys, rfl⟩] at h
    cases h
  | ok named =>
    constructor
    · intro hvalue
      cases hvalue
      obtain ⟨pairs, hpairs, hkeys, rfl⟩ := evalEntries_eq_ok.mp h
      exact ⟨pairs, hpairs, hkeys, rfl⟩
    · rintro ⟨pairs, hpairs, hkeys, rfl⟩
      rw [evalEntries_eq_ok.mpr ⟨pairs, hpairs, hkeys, rfl⟩] at h
      cases h
      rfl

/-- A map literal is asked for a key: the last pair of its text gives the value. -/
theorem eval_index_dict {span span' : Span} {entries : List (Expr × Expr)} {origin : Origin}
    {pairs : List (Value × Value)}
    (hpairs : Pairs env context (origin.child 0) 0 entries pairs)
    (hkeys : ∀ pair ∈ pairs, pair.1.IsKey) (hk : k.Gives env context key) (h : key.IsKey) :
    (index span' (dict span entries) k).eval env origin context =
      Entries.lookup (texts pairs).reverse span' key.display := by
  rw [eval, eval_dict_eq_ok.mpr ⟨pairs, hpairs, hkeys, rfl⟩, ok_bind, hk, ok_bind, Value.ofMap,
    Value.Keyed.map.index, Value.mapKey_of_isKey h, ok_bind, located_getKey, Entries.lookup,
    Entries.get?_ofPairs, Entries.lookup]

/-! ## Ways of asking -/

variable (env context)

/-- The value is refused as a key wherever it is asked for as one. -/
structure KeyRefused (m k : Expr) (key : Value) : Prop where
  index : ∀ span origin, (index span m k).eval env origin context = key.refusedKey span
  mem : ∀ span origin, (binary span .mem k m).eval env origin context = key.refusedKey span
  dict : ∀ span e rest origin,
    (dict span ((k, e) :: rest)).eval env origin context = key.refusedKey span

/-- The value is taken for its text wherever it is asked for as a key, as if `string` had been
called on it, and what is a member can be looked up. -/
structure KeyTaken (m k : Expr) (entries : Entries Value) (key : Value) : Prop where
  text : ∀ inner, (k.text inner).Gives env context (.string key.display)
  index : ∀ span inner origin,
    (index span m k).eval env origin context = entries.lookup span key.display ∧
      (index span m (k.text inner)).eval env origin context =
        (index span m k).eval env origin context
  mem : ∀ span inner origin,
    (binary span .mem k m).eval env origin context =
        .ok (.bool (entries.contains key.display)) ∧
      (binary span .mem (k.text inner) m).eval env origin context =
        (binary span .mem k m).eval env origin context
  dict : ∀ span inner e rest origin,
    (dict span ((k.text inner, e) :: rest)).eval env origin context =
      (dict span ((k, e) :: rest)).eval env origin context
  found : ∀ span span' origin origin',
    (binary span .mem k m).eval env origin context = .ok (.bool true) ↔
      ∃ value, (Expr.index span' m k).eval env origin' context = .ok value
  missing : ∀ span span' origin origin',
    (binary span .mem k m).eval env origin context ≠ .ok (.bool true) →
      (Expr.index span' m k).eval env origin' context =
        .error (.failed ((Failure.of (.noSuchKey key.display)).withSpan span'))

/-- A field is asked for as the string of its name is. -/
structure FieldTaken (m : Expr) (field : String) : Prop where
  has : ∀ span span' span'' origin, (has span m field).eval env origin context =
    (binary span' .mem (.literal span'' (.string field)) m).eval env origin context
  select : ∀ span span' origin, (select span m field).eval env origin context =
    (Expr.index span m (.literal span' (.string field))).eval env origin context

variable {env context} {entries : Entries Value} {container : Value} {m : Expr}

theorem keyRefused (hcontainer : container.Keyed entries) (hm : m.Gives env context container)
    (hk : k.Gives env context key) (h : ¬ key.IsKey) : KeyRefused env context m k key where
  index := eval_index_of_not_isKey hcontainer hm hk h
  mem := eval_mem_of_not_isKey hcontainer hm hk h
  dict := eval_dict_of_not_isKey hk h

theorem keyTaken (hstring : env.functions.get? "string" =
      some (Standard.onAny "string" Standard.string))
    (hcontainer : container.Keyed entries) (hm : m.Gives env context container)
    (hk : k.Gives env context key) (h : key.IsKey) : KeyTaken env context m k entries key := by
  have hindex := eval_index_of_isKey hcontainer hm hk h
  have hmem := eval_mem_of_isKey hcontainer hm hk h
  have htext := gives_text hstring hk h
  refine ⟨htext, fun span inner origin => ⟨hindex span origin, ?_⟩,
    fun span inner origin => ⟨hmem span origin, ?_⟩, fun span inner e rest origin => ?_,
    fun span span' origin origin' => ?_, fun span span' origin origin' hnot => ?_⟩
  · rw [hindex]
    exact eval_index_of_isKey hcontainer hm (htext inner) (.string _) span origin
  · rw [hmem]
    exact eval_mem_of_isKey hcontainer hm (htext inner) (.string _) span origin
  · exact eval_dict_congr (htext inner) hk (Value.mapKey_of_isKey h).symm span e rest origin
  · rw [hmem, hindex, ← Entries.contains_iff_lookup]
    simp
  · rw [hmem] at hnot
    rw [hindex]
    exact Entries.lookup_of_not_contains (Bool.eq_false_iff.mpr fun hthere =>
      hnot (by rw [hthere])) span'

theorem fieldTaken (hcontainer : container.Keyed entries) (hm : m.Gives env context container)
    (field : String) : FieldTaken env context m field := by
  have hname (span : Span) : (literal span (.string field)).Gives env context (.string field) :=
    fun _ => rfl
  refine ⟨fun span span' span'' origin => ?_, fun span span' origin => ?_⟩
  · rw [eval_has_of_keyed hcontainer hm]
    exact (eval_mem_of_isKey hcontainer hm (hname span'') (.string field) span' origin).symm
  · rw [eval_select_of_keyed hcontainer hm]
    exact (eval_index_of_isKey hcontainer hm (hname span') (.string field) span origin).symm

end Eval

end Expr

open JsonTemplate.Expr (Gives KeyRefused KeyTaken FieldTaken Pairs texts)

/-- **Every way of asking for a key agrees.** An index, a membership and a map literal refuse the
same values with the same message, and take any other for what `string` makes of it; a member can be
looked up and nothing else can. A field is its own text, for a selection and for `has`. A map
literal has a value exactly if its keys are keys; its entries stand in the order in which their
texts first occur, and looking up a key gives the last of its text. -/
theorem ways_of_asking_agree {env : Environment} (hstring : env.functions.get? "string" =
      some (Standard.onAny "string" Standard.string)) (context : Context) :
    (∀ {m k : Expr} {container key : Value} {entries : Entries Value},
      container.Keyed entries → m.Gives env context container → k.Gives env context key →
        (¬ key.IsKey → KeyRefused env context m k key) ∧
        (key.IsKey → KeyTaken env context m k entries key)) ∧
    (∀ {m : Expr} {container : Value} {entries : Entries Value},
      container.Keyed entries → m.Gives env context container →
        ∀ field, FieldTaken env context m field) ∧
    ∀ (span : Span) (entries : List (Expr × Expr)),
      (∀ origin value, (Expr.dict span entries).eval env origin context = .ok value ↔
        ∃ pairs, Pairs env context origin 0 entries pairs ∧ (∀ pair ∈ pairs, pair.1.IsKey) ∧
          value = .ofMap (texts pairs)) ∧
      (∀ pairs, (Entries.ofPairs (texts pairs)).keys = (Entries.keys (texts pairs)).eraseDups) ∧
      ∀ {origin : Origin} {pairs : List (Value × Value)} {k : Expr} {key : Value},
        Pairs env context (origin.child 0) 0 entries pairs → (∀ pair ∈ pairs, pair.1.IsKey) →
        k.Gives env context key → key.IsKey →
        ∀ span', (Expr.index span' (.dict span entries) k).eval env origin context =
          Entries.lookup (texts pairs).reverse span' key.display :=
  ⟨fun hcontainer hm hk =>
      ⟨Expr.keyRefused hcontainer hm hk, Expr.keyTaken hstring hcontainer hm hk⟩,
    fun hcontainer hm => Expr.fieldTaken hcontainer hm,
    fun _ _ => ⟨fun _ _ => Expr.eval_dict_eq_ok, fun _ => Entries.keys_ofPairs _,
      fun hpairs hkeys hk h _ => Expr.eval_index_dict hpairs hkeys hk h⟩⟩

/-- A record with the key `"1"`: `r[1]` is `r[string(1)]`, and `null in r` is refused. -/
theorem ways_of_asking_agree_of_record :
    let made : Value := .record ⟨[7]⟩ [("1", .string "a")]
    let context : Context := fun name => if name = "r" then some made else none
    let r : Expr := .ident ⟨0, 1⟩ "r"
    let one : Expr := .literal ⟨2, 3⟩ (.number (.ofNat 1))
    ((Expr.index ⟨0, 4⟩ r (one.text ⟨2, 3⟩)).eval .standard default context =
        (Expr.index ⟨0, 4⟩ r one).eval .standard default context) ∧
      (Expr.binary ⟨0, 9⟩ .mem (.literal ⟨0, 4⟩ .null) r).eval .standard default context =
        Value.null.refusedKey ⟨0, 9⟩ := by
  intro made context r one
  have hr : r.Gives .standard context made := fun _ => rfl
  have hways {k : Expr} {key : Value} (hk : k.Gives .standard context key) :=
    (@ways_of_asking_agree .standard (by rfl) context).1 (.record ⟨[7]⟩) hr hk
  have hwhole : (Value.number (.ofNat 1)).IsKey := .number (by decide +kernel)
  have hone : one.Gives .standard context (.number (.ofNat 1)) := fun _ => rfl
  have hnull : (Expr.literal ⟨0, 4⟩ .null).Gives .standard context .null := fun _ => rfl
  exact ⟨(((hways hone).2 hwhole).index ⟨0, 4⟩ ⟨2, 3⟩ default).2,
    ((hways hnull).1 nofun).mem ⟨0, 9⟩ default⟩

end JsonTemplate
