/-
What a function may rely on when it is run. The dispatcher counts the parameters an overload
requires and matches arguments with parameters by position, apart from one another. Together they
guarantee an argument for each required parameter that no optional one precedes, hence for all of
them where the required ones come first, and for no other order of parameters
(`complete_of_accepts_iff`).
-/
import JsonTemplate.Proofs.Dispatch

namespace JsonTemplate

/-- Some value of the type. -/
def ValueType.sample : ValueType → Value
  | .string => .string ""
  | .number => .number (.ofNat 0)
  | .bool => .bool false
  | .list => .list []
  | .map => .map []
  | .object => .record default []
  | .null => .null
  | .any => .null

theorem ValueType.matches_sample (type : ValueType) : type.matches type.sample = true := by
  cases type <;> rfl

namespace Overload

/-- The call is in the style of the overload: its receiver matches the receiver's type, and every
argument has a parameter at its position and matches the type of it. -/
structure Matched (o : Overload) (receiver : Option Value) (args : List Value) : Prop where
  style : receiver.isSome = o.receiver.isSome
  receiver : ∀ v ∈ receiver, ∀ type ∈ o.receiver, type.matches v = true
  args : ∀ (i : Nat) (v : Value), args[i]? = some v →
    ∃ p, o.parameters[i]? = some p ∧ p.type.matches v = true

/-- The parameter at a position is required, and so are those before it. -/
def Leading (o : Overload) (i : Nat) : Prop :=
  i < o.parameters.length ∧ ∀ p ∈ o.parameters.take (i + 1), p.required = true

/-- Every required parameter has an argument at its position. -/
def Complete (o : Overload) (args : List Value) : Prop :=
  ∀ (i : Nat) (p : Parameter), o.parameters[i]? = some p → p.required = true → i < args.length

/-- No required parameter stands after an optional one. -/
def RequiredFirst (o : Overload) : Prop :=
  o.parameters.Pairwise fun earlier later => later.required = true → earlier.required = true

variable {o : Overload} {receiver : Option Value} {args : List Value}

theorem takes_iff {onReceiver : Bool} {n : Nat} :
    o.takes onReceiver n = true ↔
      onReceiver = o.receiver.isSome ∧ o.required ≤ n ∧ n ≤ o.parameters.length := by
  simp [takes, and_assoc]

theorem acceptsReceiver_iff :
    o.acceptsReceiver receiver = true ↔
      ∀ v ∈ receiver, ∀ type ∈ o.receiver, type.matches v = true := by
  cases receiver with
  | none => simp [acceptsReceiver]
  | some v => cases htype : o.receiver <;> simp [acceptsReceiver, htype]

/-- Arguments that do not outnumber the parameters match them pairwise if each one matches the
parameter at its position. -/
theorem matchAll_iff (hlength : args.length ≤ o.parameters.length) :
    ((args.zip o.parameters).all fun (v, p) => p.type.matches v) = true ↔
      ∀ (i : Nat) (v : Value), args[i]? = some v →
        ∃ p, o.parameters[i]? = some p ∧ p.type.matches v = true := by
  simp only [List.all_eq_true, List.mem_iff_getElem?, List.getElem?_zip_eq_some]
  constructor
  · intro h i v hv
    have hi : i < o.parameters.length :=
      Nat.lt_of_lt_of_le (List.getElem?_eq_some_iff.mp hv).1 hlength
    exact ⟨o.parameters[i], List.getElem?_eq_getElem hi,
      h (v, o.parameters[i]) ⟨i, hv, List.getElem?_eq_getElem hi⟩⟩
  · rintro h ⟨v, p⟩ ⟨i, hv, hp⟩
    obtain ⟨q, hq, hmatches⟩ := h i v hv
    rw [hp] at hq
    cases hq
    exact hmatches

/-- What the test of an overload decides: how the values fit, and how many are given. -/
theorem accepts_iff :
    o.accepts receiver args = true ↔ o.Matched receiver args ∧ o.required ≤ args.length := by
  rw [accepts, Bool.and_eq_true, Bool.and_eq_true, takes_iff, acceptsReceiver_iff]
  constructor
  · rintro ⟨⟨⟨hstyle, henough, hlength⟩, hreceiver⟩, hall⟩
    exact ⟨⟨hstyle, hreceiver, (matchAll_iff hlength).mp hall⟩, henough⟩
  · rintro ⟨⟨hstyle, hreceiver, hargs⟩, henough⟩
    have hlength : args.length ≤ o.parameters.length := by
      by_contra hlong
      obtain ⟨p, hp, -⟩ := hargs o.parameters.length _
        (List.getElem?_eq_getElem (Nat.lt_of_not_le hlong))
      rw [List.getElem?_eq_none (Nat.le_refl _)] at hp
      cases hp
    exact ⟨⟨⟨hstyle, henough, hlength⟩, hreceiver⟩, (matchAll_iff hlength).mpr hargs⟩

/-! ## Required parameters -/

/-- Up to a leading position there are only required parameters, and all of them count. -/
theorem Leading.lt_required {i : Nat} (h : o.Leading i) : i < o.required := by
  have hall : (o.parameters.take (i + 1)).countP (·.required) = i + 1 := by
    rw [List.countP_eq_length.mpr h.2, List.length_take]
    exact Nat.min_eq_left h.1
  have hle : (o.parameters.take (i + 1)).countP (·.required) ≤ o.required :=
    (List.take_sublist _ _).countP_le
  omega

theorem RequiredFirst.leading (h : o.RequiredFirst) {i : Nat} {p : Parameter}
    (hp : o.parameters[i]? = some p) (hrequired : p.required = true) : o.Leading i := by
  obtain ⟨hi, rfl⟩ := List.getElem?_eq_some_iff.mp hp
  refine ⟨hi, fun q hq => ?_⟩
  obtain ⟨j, hj, rfl⟩ := List.mem_take_iff_getElem.mp hq
  obtain hlt | rfl := Nat.lt_or_eq_of_le (Nat.le_of_lt_succ (Nat.lt_min.mp hj).1)
  · exact List.pairwise_iff_getElem.mp h j i _ hi hlt hrequired
  · exact hrequired

/-- A call with as many arguments as there are required parameters, each of its parameter's
type. -/
def leastArgs (o : Overload) : List Value := (o.parameters.take o.required).map (·.type.sample)

theorem length_leastArgs (o : Overload) : o.leastArgs.length = o.required := by
  rw [leastArgs, List.length_map, List.length_take]
  exact Nat.min_eq_left List.countP_le_length

theorem accepts_leastArgs (o : Overload) :
    o.accepts (o.receiver.map ValueType.sample) o.leastArgs = true := by
  refine accepts_iff.mpr ⟨⟨Option.isSome_map, ?_, ?_⟩, Nat.le_of_eq (length_leastArgs o).symm⟩
  · rintro v hv type htype
    rw [Option.mem_def] at htype
    rw [htype] at hv
    cases hv
    exact type.matches_sample
  · intro i v hv
    rw [leastArgs, List.getElem?_map, Option.map_eq_some_iff] at hv
    obtain ⟨p, hp, rfl⟩ := hv
    rw [List.getElem?_take] at hp
    split at hp
    · exact ⟨p, hp, p.type.matches_sample⟩
    · cases hp

/-- If the least call is complete, the required parameters are the first ones. -/
theorem requiredFirst_of_complete (h : o.Complete o.leastArgs) : o.RequiredFirst := by
  have hbefore (i : Nat) (hi : i < o.parameters.length)
      (hrequired : o.parameters[i].required = true) : i < o.required := by
    rw [← length_leastArgs]
    exact h i _ (List.getElem?_eq_getElem hi) hrequired
  -- No required parameter is left for the rest, so those that are counted fill the beginning.
  have hrest : (o.parameters.drop o.required).countP (·.required) = 0 := by
    rw [List.countP_eq_zero]
    intro p hp hrequired
    obtain ⟨k, hk, rfl⟩ := List.mem_drop_iff_getElem.mp hp
    have := hbefore _ _ hrequired
    omega
  have hcount : (o.parameters.take o.required).countP (·.required) = o.required := by
    rw [← Nat.add_zero (List.countP _ _), ← hrest, ← List.countP_append, List.take_append_drop]
    rfl
  have hfirst : ∀ p ∈ o.parameters.take o.required, p.required = true := by
    rw [← List.countP_eq_length, hcount, List.length_take]
    exact (Nat.min_eq_left List.countP_le_length).symm
  rw [RequiredFirst, List.pairwise_iff_getElem]
  intro i j hi hj hlt hrequired
  have hj := hbefore j hj hrequired
  exact hfirst _ (List.mem_take_iff_getElem.mpr ⟨i, Nat.lt_min.mpr ⟨by omega, hi⟩, rfl⟩)

/-- **The order of the parameters decides what acceptance guarantees.** Every accepted call of an
overload gives all its required parameters if and only if none of them stands after an optional
one. -/
theorem complete_of_accepts_iff (o : Overload) :
    (∀ receiver args, o.accepts receiver args = true → o.Complete args) ↔ o.RequiredFirst := by
  constructor
  · intro h
    exact requiredFirst_of_complete (h _ _ o.accepts_leastArgs)
  · intro h receiver args haccepts i p hp hrequired
    exact Nat.lt_of_lt_of_le (h.leading hp hrequired).lt_required (accepts_iff.mp haccepts).2

end Overload

/-- One overload fits the call, and what the call gives of its required parameters: those that no
optional one precedes, and all of them if none stands after an optional one. -/
def Signature.Supplied (s : Signature) (receiver : Option Value) (args : List Value) : Prop :=
  ∃ o ∈ s.overloads, o.Matched receiver args ∧ (∀ i, o.Leading i → i < args.length) ∧
    (o.RequiredFirst → o.Complete args)

theorem Signature.supplied_of_accepts {s : Signature} (hoverloads : s.overloads ≠ [])
    {receiver : Option Value} {args : List Value} (h : s.accepts receiver args = true) :
    s.Supplied receiver args := by
  rw [accepts, Bool.or_eq_true, List.isEmpty_iff, List.any_eq_true] at h
  obtain ⟨o, hmem, haccepts⟩ := h.resolve_left hoverloads
  obtain ⟨hmatched, henough⟩ := Overload.accepts_iff.mp haccepts
  exact ⟨o, hmem, hmatched, fun i hi => Nat.lt_of_lt_of_le hi.lt_required henough,
    fun hfirst => (Overload.complete_of_accepts_iff o).mpr hfirst _ _ haccepts⟩

/-- **What an accepted call supplies.** If a signature with overloads accepts a call, one overload
of the call's style fits its receiver and each of its arguments, and each required parameter that
no optional one precedes has an argument; a function of that signature is run on no other values,
since any other call fails for want of an overload. All required parameters are sure to have an
argument exactly where none of them stands after an optional one. -/
theorem accepted_call_supplies_leading_parameters (s : Signature) (hoverloads : s.overloads ≠ []) :
    (∀ receiver args, s.accepts receiver args = true → s.Supplied receiver args) ∧
    (∀ (env : Environment) (name : String) (f : Function),
      env.functions.get? name = some f → f.signature = s → ∀ receiver args,
        s.Supplied receiver args ∧
          (∀ origin, env.call name origin receiver args = f.call origin receiver args) ∨
        ∀ origin, env.call name origin receiver args =
          .raise (.noSuchOverload name (Environment.callTypes receiver args))) ∧
    ∀ o ∈ s.overloads,
      (∀ receiver args, o.accepts receiver args = true → o.Complete args) ↔ o.RequiredFirst := by
  refine ⟨fun receiver args => Signature.supplied_of_accepts hoverloads, ?_,
    fun o _ => o.complete_of_accepts_iff⟩
  rintro env name f hget rfl receiver args
  cases haccepts : f.signature.accepts receiver args with
  | true =>
    exact .inl ⟨Signature.supplied_of_accepts hoverloads haccepts,
      Environment.call_of_accepted hget haccepts⟩
  | false => exact .inr (Environment.call_of_refused hget haccepts)

/-- A function with a required text and an optional count: a call that is run has the text. -/
theorem accepted_call_supplies_leading_parameters_of_repeat :
    let s : Signature := ⟨"repeat", [⟨none, [⟨"text", .string, true⟩, ⟨"count", .number, false⟩]⟩]⟩
    s.accepts none [.string "a"] = true ∧ s.Supplied none [.string "a"] := by
  intro s
  have haccepts : s.accepts none [.string "a"] = true := by decide +kernel
  exact ⟨haccepts, (accepted_call_supplies_leading_parameters s (List.cons_ne_nil _ _)).1 _ _
    haccepts⟩

/-- A required parameter after an optional one may be missing: one argument is enough for
`optional a, required b`, and it stands for `a`. -/
theorem accepted_call_may_lack_required_parameter :
    let s : Signature := ⟨"f", [⟨none, [⟨"a", .string, false⟩, ⟨"b", .number, true⟩]⟩]⟩
    s.accepts none [.string "x"] = true ∧
      ¬ ∃ o ∈ s.overloads, o.Matched none [.string "x"] ∧ o.Complete [.string "x"] := by
  intro s
  refine ⟨by decide +kernel, ?_⟩
  rintro ⟨o, hmem, -, hcomplete⟩
  rw [List.mem_singleton] at hmem
  subst hmem
  exact Nat.lt_irrefl 1 (hcomplete 1 _ rfl rfl)

end JsonTemplate
