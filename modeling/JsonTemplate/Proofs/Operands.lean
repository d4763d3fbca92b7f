/-
The standard functions on the calls that their signatures accept. These are the calls with every
operand that the function reads, each of the type it reads it as (`accepts_iff_operands`), so what
a function says of an operand that is missing or of another type is never said. What is left are
the failures of conversions and lists, each under its own condition
(`standard_calls_fail_as_documented`).
-/
import JsonTemplate.Proofs.Acceptance
import JsonTemplate.Proofs.Options
import JsonTemplate.Proofs.Spans

namespace JsonTemplate

theorem ValueType.matches_string {v : Value} :
    ValueType.string.matches v = true ↔ ∃ s, v = .string s := by
  cases v <;> simp [ValueType.matches]

theorem ValueType.matches_number {v : Value} :
    ValueType.number.matches v = true ↔ ∃ n, v = .number n := by
  cases v <;> simp [ValueType.matches]

theorem ValueType.matches_list {v : Value} :
    ValueType.list.matches v = true ↔ ∃ items, v = .list items := by
  cases v <;> simp [ValueType.matches]

namespace Standard

/-! ## The functions by their operands -/

/-- The functions called as `f(x)` and as `x.f()`. -/
def conversions : List (String × Body) :=
  [("size", size), ("string", string), ("int", int), ("double", double), ("bool", bool),
    ("type", type), ("dyn", dyn)]

/-- The functions of a string and a second one. -/
def comparisons : List (String × Body) :=
  [("contains", contains), ("startsWith", startsWith), ("endsWith", endsWith), ("split", split)]

/-- The functions of a string alone. -/
def mappings : List (String × Body) :=
  [("lowerAscii", lowerAscii), ("upperAscii", upperAscii), ("trim", trim)]

def comparison (name : String) (body : Body) : Function :=
  onReceiver name .string [⟨"text", .string, true⟩] body

def mapping (name : String) (body : Body) : Function := onReceiver name .string [] body

def joining : Function := onReceiver "join" .list [⟨"separator", .string, false⟩] join

def slicing : Function :=
  onReceiver "slice" .list [⟨"start", .number, true⟩, ⟨"end", .number, true⟩] slice

def flattening : Function := onReceiver "flatten" .list [⟨"depth", .number, false⟩] flatten

/-- The standard functions by the operands that they read. -/
inductive Kind : Function → Prop
  | conversion {name : String} {body : Body} (h : (name, body) ∈ conversions) :
      Kind (onAny name body)
  | comparison {name : String} {body : Body} (h : (name, body) ∈ comparisons) :
      Kind (comparison name body)
  | mapping {name : String} {body : Body} (h : (name, body) ∈ mappings) : Kind (mapping name body)
  | joining : Kind joining
  | slicing : Kind slicing
  | flattening : Kind flattening

theorem mem_functions_iff {f : Function} : f ∈ functions ↔ Kind f := by
  have hfunctions : functions = conversions.map (fun p => onAny p.1 p.2) ++
      comparisons.map (fun p => comparison p.1 p.2) ++
      mappings.map (fun p => mapping p.1 p.2) ++ [joining, slicing, flattening] := rfl
  rw [hfunctions]
  simp only [List.mem_append, List.mem_map, List.mem_cons, List.not_mem_nil, or_false]
  constructor
  · rintro (((⟨p, hp, rfl⟩ | ⟨p, hp, rfl⟩) | ⟨p, hp, rfl⟩) | rfl | rfl | rfl)
    · exact .conversion hp
    · exact .comparison hp
    · exact .mapping hp
    · exact .joining
    · exact .slicing
    · exact .flattening
  · intro h
    cases h with
    | conversion h => exact .inl (.inl (.inl ⟨_, h, rfl⟩))
    | comparison h => exact .inl (.inl (.inr ⟨_, h, rfl⟩))
    | mapping h => exact .inl (.inr ⟨_, h, rfl⟩)
    | joining => exact .inr (.inl rfl)
    | slicing => exact .inr (.inr (.inl rfl))
    | flattening => exact .inr (.inr (.inr rfl))

/-- The one operand of a call, before the function's name or in brackets. -/
inductive OperandIs (x : Value) : Option Value → List Value → Prop
  | argument : OperandIs x none [x]
  | receiver : OperandIs x (some x) []

/-- The operands that a standard function reads, all there and of their types. -/
inductive Operands : Function → Option Value → List Value → Prop
  | conversion {name : String} {body : Body} (hname : (name, body) ∈ conversions) {x : Value}
      {receiver : Option Value} {args : List Value} (h : OperandIs x receiver args) :
      Operands (onAny name body) receiver args
  | comparison {name : String} {body : Body} (hname : (name, body) ∈ comparisons)
      (s text : String) : Operands (comparison name body) (some (.string s)) [.string text]
  | mapping {name : String} {body : Body} (hname : (name, body) ∈ mappings) (s : String) :
      Operands (mapping name body) (some (.string s)) []
  | joining (items : List Value) (separator : Option String) :
      Operands joining (some (.list items)) (separator.map Value.string).toList
  | slicing (items : List Value) (start stop : Binary64) :
      Operands slicing (some (.list items)) [.number start, .number stop]
  | flattening (items : List Value) (depth : Option Binary64) :
      Operands flattening (some (.list items)) (depth.map Value.number).toList

theorem Operands.mem_functions {f : Function} {receiver : Option Value} {args : List Value}
    (h : Operands f receiver args) : f ∈ functions := by
  rw [mem_functions_iff]
  cases h with
  | conversion hname _ => exact .conversion hname
  | comparison hname _ _ => exact .comparison hname
  | mapping hname _ => exact .mapping hname
  | joining => exact .joining
  | slicing => exact .slicing
  | flattening => exact .flattening

section Accepted

variable {name : String} {body : Body} {type : ValueType} {receiver : Option Value}
  {args : List Value}

theorem onAny_accepts :
    (onAny name body).signature.accepts receiver args = true ↔ ∃ x, OperandIs x receiver args := by
  constructor
  · intro h
    match receiver, args with
    | none, [x] => exact ⟨x, .argument⟩
    | some x, [] => exact ⟨x, .receiver⟩
    | none, [] => cases h
    | none, _ :: _ :: _ => simp [onAny, Signature.accepts, Overload.accepts, Overload.takes] at h
    | some _, _ :: _ => simp [onAny, Signature.accepts, Overload.accepts, Overload.takes] at h
  · rintro ⟨x, _ | _⟩ <;> rfl

theorem onReceiver_accepts {parameters : List Parameter} :
    (onReceiver name type parameters body).signature.accepts receiver args = true ↔
      (∃ v, receiver = some v ∧ type.matches v = true) ∧
        parameters.countP (·.required) ≤ args.length ∧ args.length ≤ parameters.length ∧
        ((args.zip parameters).all fun (v, p) => p.type.matches v) = true := by
  simp only [onReceiver, Signature.accepts, List.isEmpty_cons, Bool.false_or, List.any_cons,
    List.any_nil, Bool.or_false, Overload.accepts, Bool.and_eq_true, Overload.takes_iff,
    Overload.acceptsReceiver_iff, Overload.required]
  cases receiver <;> simp [and_assoc, and_left_comm]

/-- A receiver and one argument, which may be left out if it is optional. -/
theorem onReceiver_accepts_one {p : Parameter}
    (h : (onReceiver name type [p] body).signature.accepts receiver args = true) :
    ∃ v, receiver = some v ∧ type.matches v = true ∧
      (p.required = false ∧ args = [] ∨ ∃ a, args = [a] ∧ p.type.matches a = true) := by
  obtain ⟨⟨v, rfl, hv⟩, hleast, hmost, hargs⟩ := onReceiver_accepts.mp h
  refine ⟨v, rfl, hv, ?_⟩
  match args, hmost with
  | [], _ =>
    refine .inl ⟨?_, rfl⟩
    cases hrequired : p.required with
    | false => rfl
    | true => simp [hrequired] at hleast
  | [a], _ => exact .inr ⟨a, rfl, by simpa using hargs⟩

end Accepted

/-- A standard function accepts exactly the calls with the operands that it reads. -/
theorem accepts_iff_operands {f : Function} (hf : f ∈ functions) {receiver : Option Value}
    {args : List Value} : f.signature.accepts receiver args = true ↔ Operands f receiver args := by
  constructor
  · intro h
    cases mem_functions_iff.mp hf with
    | conversion hname =>
      obtain ⟨x, hx⟩ := onAny_accepts.mp h
      exact .conversion hname hx
    | comparison hname =>
      obtain ⟨v, rfl, hv, ⟨hoptional, -⟩ | ⟨a, rfl, ha⟩⟩ := onReceiver_accepts_one h
      · cases hoptional
      · obtain ⟨s, rfl⟩ := ValueType.matches_string.mp hv
        obtain ⟨text, rfl⟩ := ValueType.matches_string.mp ha
        exact .comparison hname s text
    | mapping hname =>
      obtain ⟨⟨v, rfl, hv⟩, -, hmost, -⟩ := onReceiver_accepts.mp h
      obtain ⟨s, rfl⟩ := ValueType.matches_string.mp hv
      obtain rfl := List.eq_nil_of_length_eq_zero (Nat.le_zero.mp hmost)
      exact .mapping hname s
    | joining =>
      obtain ⟨v, rfl, hv, hargs⟩ := onReceiver_accepts_one h
      obtain ⟨items, rfl⟩ := ValueType.matches_list.mp hv
      rcases hargs with ⟨-, rfl⟩ | ⟨a, rfl, ha⟩
      · exact .joining items none
      · obtain ⟨separator, rfl⟩ := ValueType.matches_string.mp ha
        exact .joining items (some separator)
    | slicing =>
      obtain ⟨⟨v, rfl, hv⟩, hleast, hmost, hargs⟩ := onReceiver_accepts.mp h
      obtain ⟨items, rfl⟩ := ValueType.matches_list.mp hv
      match args, hleast, hmost with
      | [a, b], _, _ =>
        have hboth : ValueType.number.matches a = true ∧ ValueType.number.matches b = true := by
          simpa using hargs
        obtain ⟨start, rfl⟩ := ValueType.matches_number.mp hboth.1
        obtain ⟨stop, rfl⟩ := ValueType.matches_number.mp hboth.2
        exact .slicing items start stop
    | flattening =>
      obtain ⟨v, rfl, hv, hargs⟩ := onReceiver_accepts_one h
      obtain ⟨items, rfl⟩ := ValueType.matches_list.mp hv
      rcases hargs with ⟨-, rfl⟩ | ⟨a, rfl, ha⟩
      · exact .flattening items none
      · obtain ⟨depth, rfl⟩ := ValueType.matches_number.mp ha
        exact .flattening items (some depth)
  · intro h
    cases h with
    | conversion _ h => exact onAny_accepts.mpr ⟨_, h⟩
    | comparison _ s text => rfl
    | mapping _ s => rfl
    | joining items separator => cases separator <;> rfl
    | slicing items start stop => rfl
    | flattening items depth => cases depth <;> rfl

/-! ## What each function fails on -/

/-- What a function says of an operand that is not there, or not of the type it reads. -/
def Misfit : Cause → Prop
  | .missingPosition _ => True
  | .unexpected expected got => expected = "string" ∨ expected = "list" ∨
      expected = "non-negative integer" ∧ got ≠ "number"
  | _ => False

/-- There is a value, or else a failure that is not about an operand that is missing or misfits. -/
def Fitting {α : Type} (outcome : Outcome α) : Prop :=
  Satisfies (fun _ => True) (fun i => ∃ f, i = .failed f ∧ ¬ Misfit f.cause) outcome

theorem fitting_raise {α : Type} {cause : Cause} (h : ¬ Misfit cause) :
    Fitting (Outcome.raise cause : Outcome α) :=
  ⟨_, rfl, h⟩

section Conversions

variable {x : Value} {receiver : Option Value} {args : List Value}

theorem OperandIs.operand_eq (h : OperandIs x receiver args) : operand receiver args = x := by
  cases h <;> rfl

/-- A failed conversion names the type of its operand and its own. -/
def Unconvertible (target : String) (x : Value) (i : Interrupt) : Prop :=
  ∃ beneath, i = .failed ⟨.conversion x.typeName target, none, beneath⟩

variable (h : OperandIs x receiver args)
include h

theorem string_fails_iff : (∃ i, string receiver args = .error i) ↔
    (∃ items, x = .list items) ∨ ∃ entries, x = .map entries := by
  rw [string, h.operand_eq]
  cases x <;> simp [Outcome.raise]

theorem size_fails_iff : (∃ i, size receiver args = .error i) ↔
    x = .null ∨ (∃ b, x = .bool b) ∨ (∃ n, x = .number n) ∨
      ∃ face, x.face? = some face ∧ face.type.traits.sized = false := by
  rw [size, h.operand_eq]
  cases x with
  | host made type get contains keys size =>
    cases hsized : type.traits.sized <;> simp [Value.face?, Option.filter, hsized, Outcome.raise]
  | _ => simp [Value.face?, Face.ofEntries, Option.filter, ObjectType.record, Outcome.raise]

theorem size_satisfies : Satisfies (fun _ => True)
    (fun i => i = .failed (.of (.noSuchOverload "size" [x.typeName]))) (size receiver args) := by
  rw [size, h.operand_eq]
  split <;> try trivial
  split
  · trivial
  · rfl

theorem string_satisfies :
    Satisfies (fun _ => True) (Unconvertible "string" x) (string receiver args) := by
  rw [string, h.operand_eq]
  split
  · exact ⟨none, rfl⟩
  · exact ⟨none, rfl⟩
  · trivial

theorem int_satisfies :
    Satisfies (fun _ => True) (Unconvertible "int" x) (int receiver args) := by
  rw [int, h.operand_eq]
  split
  · split
    · trivial
    · exact ⟨none, rfl⟩
  · split
    · trivial
    · exact ⟨_, rfl⟩
  · exact ⟨none, rfl⟩

theorem double_satisfies :
    Satisfies (fun _ => True) (Unconvertible "double" x) (double receiver args) := by
  rw [double, h.operand_eq]
  split
  · trivial
  · split
    · trivial
    · exact ⟨_, rfl⟩
  · exact ⟨none, rfl⟩

theorem bool_satisfies :
    Satisfies (fun _ => True) (Unconvertible "bool" x) (bool receiver args) := by
  rw [bool, h.operand_eq]
  split
  · trivial
  · split
    · trivial
    · split
      · trivial
      · exact ⟨none, rfl⟩
  · exact ⟨none, rfl⟩

omit h in
/-- A conversion fails for want of an overload or of a conversion, and nothing else. -/
theorem fitting_of_conversion {name : String} {body : Body} (hname : (name, body) ∈ conversions)
    (h : OperandIs x receiver args) : Fitting (body receiver args) := by
  have hconversion {target : String} {outcome : Outcome Value}
      (hfails : Satisfies (fun _ => True) (Unconvertible target x) outcome) : Fitting outcome := by
    cases outcome with
    | ok v => trivial
    | error i =>
      obtain ⟨beneath, rfl⟩ := hfails
      exact ⟨_, rfl, id⟩
  have hsize : Fitting (size receiver args) := by
    have hfails := size_satisfies h
    cases hsize : size receiver args with
    | ok v => trivial
    | error i =>
      rw [hsize] at hfails
      cases hfails
      exact ⟨_, rfl, id⟩
  have hall : ∀ p ∈ conversions, Fitting (p.2 receiver args) := by
    simp only [conversions, List.forall_mem_cons]
    exact ⟨hsize, hconversion (string_satisfies h), hconversion (int_satisfies h),
      hconversion (double_satisfies h), hconversion (bool_satisfies h), trivial, trivial,
      List.forall_mem_nil _⟩
  exact hall _ hname

end Conversions

/-- A conversion does not look where its operand stands. -/
theorem conversion_styles {name : String} {body : Body} (hname : (name, body) ∈ conversions)
    (x : Value) : body none [x] = body (some x) [] := by
  have hall : ∀ p ∈ conversions, p.2 none [x] = p.2 (some x) [] := by
    simp only [conversions, List.forall_mem_cons]
    exact ⟨rfl, rfl, rfl, rfl, rfl, rfl, rfl, List.forall_mem_nil _⟩
  exact hall _ hname

/-! ### Strings -/

theorem comparison_succeeds {name : String} {body : Body} (hname : (name, body) ∈ comparisons)
    (s text : String) : ∃ v, body (some (.string s)) [.string text] = .ok v := by
  have hall : ∀ p ∈ comparisons, ∃ v, p.2 (some (.string s)) [.string text] = .ok v := by
    simp only [comparisons, List.forall_mem_cons]
    exact ⟨⟨_, rfl⟩, ⟨_, rfl⟩, ⟨_, rfl⟩, ⟨_, rfl⟩, List.forall_mem_nil _⟩
  exact hall _ hname

theorem mapping_succeeds {name : String} {body : Body} (hname : (name, body) ∈ mappings)
    (s : String) : ∃ v, body (some (.string s)) [] = .ok v := by
  have hall : ∀ p ∈ mappings, ∃ v, p.2 (some (.string s)) [] = .ok v := by
    simp only [mappings, List.forall_mem_cons]
    exact ⟨⟨_, rfl⟩, ⟨_, rfl⟩, ⟨_, rfl⟩, List.forall_mem_nil _⟩
  exact hall _ hname

/-! ### Lists -/

theorem mapM_stringItem (texts : List String) :
    (texts.map Value.string).mapM stringItem = .ok texts := by
  induction texts with
  | nil => rfl
  | cons text rest ih =>
    rw [List.map_cons, List.mapM_cons, ih]
    rfl

theorem mapM_stringItem_first (texts : List String) {v : Value} (h : ∀ s, v ≠ .string s)
    (after : List Value) : (texts.map Value.string ++ v :: after).mapM stringItem =
      .raise (.unexpected "list of strings" v.typeName) := by
  induction texts with
  | nil =>
    have hv : stringItem v = .raise (.unexpected "list of strings" v.typeName) := by
      cases v with
      | string s => exact absurd rfl (h s)
      | _ => rfl
    rw [List.map_nil, List.nil_append, List.mapM_cons, hv]
    rfl
  | cons text rest ih =>
    rw [List.map_cons, List.cons_append, List.mapM_cons, ih]
    rfl

/-- All items are strings, or one of them is the first that is not. -/
theorem strings_or_first (items : List Value) :
    (∃ texts : List String, items = texts.map Value.string) ∨
    ∃ (texts : List String) (v : Value) (after : List Value),
      items = texts.map Value.string ++ v :: after ∧ ∀ s, v ≠ .string s := by
  induction items with
  | nil => exact .inl ⟨[], rfl⟩
  | cons item rest ih =>
    by_cases hitem : ∃ s, item = .string s
    · obtain ⟨s, rfl⟩ := hitem
      rcases ih with ⟨texts, rfl⟩ | ⟨texts, v, after, rfl, hv⟩
      · exact .inl ⟨s :: texts, rfl⟩
      · exact .inr ⟨s :: texts, v, after, rfl, hv⟩
    · exact .inr ⟨[], item, rest, rfl, fun s hs => hitem ⟨s, hs⟩⟩

theorem join_eq (items : List Value) (separator : Option String) :
    join (some (.list items)) (separator.map Value.string).toList =
      do return .string ((separator.getD "").intercalate (← items.mapM stringItem)) := by
  cases separator <;> rfl

theorem join_strings (texts : List String) (separator : Option String) :
    join (some (.list (texts.map .string))) (separator.map Value.string).toList =
      .ok (.string ((separator.getD "").intercalate texts)) := by
  rw [join_eq, mapM_stringItem]
  rfl

/-- `join` names the type of the first item that is not a string. -/
theorem join_first (texts : List String) {v : Value} (h : ∀ s, v ≠ .string s)
    (after : List Value) (separator : Option String) :
    join (some (.list (texts.map .string ++ v :: after))) (separator.map Value.string).toList =
      .raise (.unexpected "list of strings" v.typeName) := by
  rw [join_eq, mapM_stringItem_first texts h]
  rfl

theorem join_fails_iff (items : List Value) (separator : Option String) :
    (∃ i, join (some (.list items)) (separator.map Value.string).toList = .error i) ↔
      ∃ v ∈ items, ∀ s, v ≠ .string s := by
  rcases strings_or_first items with ⟨texts, rfl⟩ | ⟨texts, v, after, rfl, hv⟩
  · simp [join_strings]
  · rw [join_first texts hv]
    exact ⟨fun _ => ⟨v, by simp, hv⟩, fun _ => ⟨_, rfl⟩⟩

/-- A number is read as a position if it is whole and not negative. -/
theorem position_number (n : Binary64) :
    (∃ k : Nat, n.toInt? = some (k : Int) ∧
      position (some (.number n)) = .ok (min k maxPosition)) ∨
    (∀ k : Nat, n.toInt? ≠ some (k : Int)) ∧
      position (some (.number n)) = .raise (.unexpected "non-negative integer" "number") := by
  cases hn : n.toInt? with
  | none => exact .inr ⟨by simp, by simp only [position, hn]⟩
  | some i =>
    cases i with
    | ofNat k => exact .inl ⟨k, rfl, by simp only [position, hn]⟩
    | negSucc k => exact .inr ⟨fun _ => by simp, by simp only [position, hn]⟩

/-- `slice` fails unless its numbers are positions in the list, in order. No list is as long as the
greatest position. -/
theorem slice_fails_iff {items : List Value} (hitems : items.length < maxPosition)
    (start stop : Binary64) :
    (∃ i, slice (some (.list items)) [.number start, .number stop] = .error i) ↔
      ¬ ∃ first last : Nat, start.toInt? = some (first : Int) ∧ stop.toInt? = some (last : Int) ∧
        first ≤ last ∧ last ≤ items.length := by
  have hslice : slice (some (.list items)) [.number start, .number stop] = (do
    let first ← position (some (.number start))
    let last ← position (some (.number stop))
    if first ≤ last ∧ last ≤ items.length then
      return .list ((items.take last).drop first)
    else .raise (.sliceOutOfRange first last items.length)) := rfl
  rw [hslice]
  rcases position_number start with ⟨first, hfirst, hread⟩ | ⟨hfirst, hread⟩
  · rcases position_number stop with ⟨last, hlast, hread'⟩ | ⟨hlast, hread'⟩
    · have hcut : min first maxPosition ≤ min last maxPosition ∧
          min last maxPosition ≤ items.length ↔ first ≤ last ∧ last ≤ items.length := by
        omega
      simp only [hread, hread', ok_bind, hcut, hfirst, hlast, Option.some.injEq, Int.natCast_inj]
      by_cases h : first ≤ last ∧ last ≤ items.length
      · simp [h]
      · simp [h, Outcome.raise]
    · simp [hread, hread', hlast, Outcome.raise]
  · simp [hread, hfirst, Outcome.raise]

theorem flatten_eq (items : List Value) (depth : Option Binary64) :
    flatten (some (.list items)) (depth.map Value.number).toList = (do
      let levels ← match depth with
        | some n => position (some (.number n))
        | none => pure 1
      return .list (flattenItems levels items)) := by
  cases depth <;> rfl

theorem flatten_fails_iff (items : List Value) (depth : Option Binary64) :
    (∃ i, flatten (some (.list items)) (depth.map Value.number).toList = .error i) ↔
      ∃ n ∈ depth, ∀ k : Nat, n.toInt? ≠ some (k : Int) := by
  rw [flatten_eq]
  cases depth with
  | none => simp
  | some n =>
    rcases position_number n with ⟨k, hk, hread⟩ | ⟨hk, hread⟩
    · simp [hread, hk]
    · simp [hread, hk, Outcome.raise]

/-! ## Calls -/

theorem fitting_position (n : Binary64) : Fitting (position (some (.number n))) := by
  rcases position_number n with ⟨k, -, hread⟩ | ⟨-, hread⟩
  · rw [hread]
    trivial
  · rw [hread]
    exact fitting_raise (by simp [Misfit])

theorem fitting_of_operands {f : Function} {receiver : Option Value} {args : List Value}
    (h : Operands f receiver args) (origin : Origin) : Fitting (f.call origin receiver args) := by
  cases h with
  | conversion hname h => exact fitting_of_conversion hname h
  | @comparison name body hname s text =>
    obtain ⟨v, hv⟩ := comparison_succeeds hname s text
    show Fitting (body _ _)
    rw [hv]
    trivial
  | @mapping name body hname s =>
    obtain ⟨v, hv⟩ := mapping_succeeds hname s
    show Fitting (body _ _)
    rw [hv]
    trivial
  | joining items separator =>
    show Fitting (join _ _)
    rcases strings_or_first items with ⟨texts, rfl⟩ | ⟨texts, v, after, rfl, hv⟩
    · rw [join_strings]
      trivial
    · rw [join_first texts hv]
      exact fitting_raise (by simp [Misfit])
  | slicing items start stop =>
    refine (fitting_position start).bind fun first _ =>
      (fitting_position stop).bind fun last _ => ?_
    split
    · trivial
    · exact fitting_raise id
  | flattening items depth =>
    show Fitting (flatten _ _)
    rw [flatten_eq]
    cases depth with
    | none => trivial
    | some n => exact (fitting_position n).bind fun _ _ => trivial

/-- The functions that give a value whatever their operands are. -/
def unfailing : List String :=
  ["contains", "startsWith", "endsWith", "split", "lowerAscii", "upperAscii", "trim", "type", "dyn"]

theorem succeeds_of_operands {f : Function} {receiver : Option Value} {args : List Value}
    (h : Operands f receiver args) (hname : f.signature.name ∈ unfailing) (origin : Origin) :
    ∃ v, f.call origin receiver args = .ok v := by
  cases h with
  | @conversion name body hmem x receiver args h =>
    have hall : ∀ p ∈ conversions, p.1 ∈ unfailing → ∃ v, p.2 receiver args = .ok v := by
      simp only [conversions, List.forall_mem_cons]
      exact ⟨(absurd · (by decide)), (absurd · (by decide)), (absurd · (by decide)),
        (absurd · (by decide)), (absurd · (by decide)), fun _ => ⟨_, rfl⟩, fun _ => ⟨_, rfl⟩,
        List.forall_mem_nil _⟩
    exact hall _ hmem hname
  | comparison hmem s text => exact comparison_succeeds hmem s text
  | mapping hmem s => exact mapping_succeeds hmem s
  | joining => exact absurd hname (by decide)
  | slicing => exact absurd hname (by decide)
  | flattening => exact absurd hname (by decide)

end Standard

/-- The environment has the function under its name. -/
def Environment.Provides (env : Environment) (f : Function) : Prop :=
  env.functions.get? f.signature.name = some f

theorem Environment.standard_provides {f : Function} (hf : f ∈ Standard.functions) :
    standard.Provides f := by
  have hdistinct : Entries.Distinct (Standard.functions.map fun f => (f.signature.name, f)) := by
    decide
  have hmem : (f.signature.name, f) ∈ Standard.functions.map fun f => (f.signature.name, f) :=
    List.mem_map_of_mem hf
  have hfunctions : standard.functions =
      Entries.ofPairs (Standard.functions.map fun f => (f.signature.name, f)) := by
    rw [standard, registerAll_eq]
    rfl
  rw [Provides, hfunctions, Entries.ofPairs_of_distinct hdistinct]
  exact Entries.get?_of_mem hdistinct hmem

theorem Environment.Provides.call_eq {env : Environment} {f : Function} (h : env.Provides f)
    {receiver : Option Value} {args : List Value} (hoperands : Standard.Operands f receiver args)
    (origin : Origin) :
    env.call f.signature.name origin receiver args = f.call origin receiver args :=
  call_of_accepted h ((Standard.accepts_iff_operands hoperands.mem_functions).mpr hoperands) origin

theorem Environment.Provides.fails_iff {env : Environment} {f : Function} (h : env.Provides f)
    {receiver : Option Value} {args : List Value} (hoperands : Standard.Operands f receiver args)
    (origin : Origin) : (∃ i, env.call f.signature.name origin receiver args = .error i) ↔
      ∃ i, f.call origin receiver args = .error i := by
  rw [h.call_eq hoperands]

open Standard (conversions functions unfailing joining slicing flattening Kind Operands OperandIs
  Fitting)

/-- When the standard functions of an environment fail, those that may. -/
structure FailsAsDocumented (env : Environment) (origin : Origin) : Prop where
  /-- `string` fails on lists and on maps. -/
  string : env.Provides (Standard.onAny "string" Standard.string) →
    ∀ {x receiver args}, OperandIs x receiver args →
      ((∃ i, env.call "string" origin receiver args = .error i) ↔
        (∃ items, x = .list items) ∨ ∃ entries, x = .map entries)
  /-- `size` fails on null, booleans, numbers and objects that are not sized. -/
  size : env.Provides (Standard.onAny "size" Standard.size) →
    ∀ {x receiver args}, OperandIs x receiver args →
      ((∃ i, env.call "size" origin receiver args = .error i) ↔
        x = .null ∨ (∃ b, x = .bool b) ∨ (∃ n, x = .number n) ∨
          ∃ face, x.face? = some face ∧ face.type.traits.sized = false)
  /-- `join` fails if an item is not a string. -/
  join : env.Provides joining → ∀ items (separator : Option String),
    (∃ i, env.call "join" origin (some (.list items)) (separator.map Value.string).toList =
      .error i) ↔ ∃ v ∈ items, ∀ s, v ≠ .string s
  /-- It names the type of the first item that is not one. -/
  first : env.Provides joining → ∀ (texts : List String) {v : Value}, (∀ s, v ≠ .string s) →
    ∀ after (separator : Option String),
      env.call "join" origin (some (.list (texts.map .string ++ v :: after)))
        (separator.map Value.string).toList = .raise (.unexpected "list of strings" v.typeName)
  /-- `slice` fails unless it is given whole numbers with `0 ≤ first ≤ last ≤ length`. No list is
  as long as the greatest position. -/
  slice : env.Provides slicing → ∀ {items : List Value}, items.length < Standard.maxPosition →
    ∀ start stop,
      (∃ i, env.call "slice" origin (some (.list items)) [.number start, .number stop] =
        .error i) ↔
      ¬ ∃ first last : Nat, start.toInt? = some (first : Int) ∧ stop.toInt? = some (last : Int) ∧
        first ≤ last ∧ last ≤ items.length
  /-- `flatten` fails if it is given a depth that is not a whole number or is negative. -/
  flatten : env.Provides flattening → ∀ items (depth : Option Binary64),
    (∃ i, env.call "flatten" origin (some (.list items)) (depth.map Value.number).toList =
      .error i) ↔ ∃ n ∈ depth, ∀ k : Nat, n.toInt? ≠ some (k : Int)

theorem failsAsDocumented (env : Environment) (origin : Origin) : FailsAsDocumented env origin where
  string hget _ _ _ h :=
    (hget.fails_iff (.conversion (by simp [conversions]) h) origin).trans
      (Standard.string_fails_iff h)
  size hget _ _ _ h :=
    (hget.fails_iff (.conversion (by simp [conversions]) h) origin).trans
      (Standard.size_fails_iff h)
  join hget items separator :=
    (hget.fails_iff (.joining items separator) origin).trans
      (Standard.join_fails_iff items separator)
  first hget texts _ hv after separator :=
    (hget.call_eq (.joining _ separator) origin).trans
      (Standard.join_first texts hv after separator)
  slice hget items hitems start stop :=
    (hget.fails_iff (.slicing items start stop) origin).trans
      (Standard.slice_fails_iff hitems start stop)
  flatten hget items depth :=
    (hget.fails_iff (.flattening items depth) origin).trans
      (Standard.flatten_fails_iff items depth)

/-- The two ways of calling a conversion are one in dispatch. -/
theorem Environment.Provides.call_conversion {env : Environment} {name : String}
    {body : Standard.Body} (hname : (name, body) ∈ conversions)
    (hget : env.Provides (Standard.onAny name body)) (origin origin' : Origin) (x : Value) :
    env.call name origin none [x] = env.call name origin' (some x) [] := by
  have hcall : env.call name origin none [x] = body none [x] :=
    hget.call_eq (.conversion hname .argument) origin
  have hcall' : env.call name origin' (some x) [] = body (some x) [] :=
    hget.call_eq (.conversion hname .receiver) origin'
  rw [hcall, hcall', Standard.conversion_styles hname]

/-- `f(x)` and `x.f()` give the same value or fail alike, wherever they stand. -/
theorem Expr.unplaced_conversion {env : Environment} {name : String} {body : Standard.Body}
    (hname : (name, body) ∈ conversions) (hget : env.Provides (Standard.onAny name body))
    (span span' : Span) {e e' : Expr} {origin origin' : Origin} {context context' : Context}
    {x : Value} (he : e.eval env (origin.child 2) context = .ok x)
    (he' : e'.eval env (origin'.child 0) context' = .ok x) :
    ((call span none name [e]).eval env origin context).unplaced =
      ((call span' (some e') name []).eval env origin' context').unplaced := by
  simp only [eval, evalOptional, evalItems, he, he', ok_bind, pure_eq_ok, Outcome.unplaced_located,
    hget.call_conversion hname (origin.child 1) (origin'.child 1) x]

/-- **The standard functions fail where documented and nowhere else.** An environment that has one
of them, as the standard one has all, runs it on the calls with the operands it reads, all there and
of their types, and on no others, so no failure is about an operand that is missing or misfits. Nine
functions never fail; `string`, `size`, `join`, `slice` and `flatten` fail under their conditions
(`FailsAsDocumented`); and a conversion does the same to its operand before its name and in
brackets. -/
theorem standard_calls_fail_as_documented (env : Environment) :
    (∀ f ∈ functions, Environment.standard.Provides f) ∧
    (∀ f ∈ functions, env.Provides f → ∀ receiver args,
      (f.signature.accepts receiver args = true ↔ Operands f receiver args) ∧
      (f.signature.accepts receiver args = true → ∀ origin,
        env.call f.signature.name origin receiver args = f.call origin receiver args ∧
        Fitting (env.call f.signature.name origin receiver args) ∧
        (f.signature.name ∈ unfailing →
          ∃ v, env.call f.signature.name origin receiver args = .ok v))) ∧
    (∀ origin, FailsAsDocumented env origin) ∧
    ∀ name body, (name, body) ∈ conversions → env.Provides (Standard.onAny name body) →
      (∀ origin origin' x,
        env.call name origin none [x] = env.call name origin' (some x) []) ∧
      ∀ span span' e e' origin origin' context context' x,
        Expr.eval env e (origin.child 2) context = .ok x →
        Expr.eval env e' (origin'.child 0) context' = .ok x →
          ((Expr.call span none name [e]).eval env origin context).unplaced =
            ((Expr.call span' (some e') name []).eval env origin' context').unplaced := by
  refine ⟨fun _ => Environment.standard_provides,
    fun f hf hget receiver args => ⟨Standard.accepts_iff_operands hf, ?_⟩, failsAsDocumented env,
    fun name body hname hget => ⟨hget.call_conversion hname, ?_⟩⟩
  · intro haccepts origin
    have hoperands := (Standard.accepts_iff_operands hf).mp haccepts
    rw [hget.call_eq hoperands]
    exact ⟨rfl, Standard.fitting_of_operands hoperands origin,
      fun hname => Standard.succeeds_of_operands hoperands hname origin⟩
  · intro span span' e e' origin origin' context context' x he he'
    exact Expr.unplaced_conversion hname hget span span' he he'

/-- `['a', null, 1].join()` fails and names the type of its second item. -/
theorem standard_calls_fail_as_documented_of_join :
    Environment.standard.Provides joining ∧
      Environment.standard.call "join" default (some (.list [.string "a", .null, .ofNat 1])) [] =
        .raise (.unexpected "list of strings" "null") := by
  obtain ⟨hall, -, hfails, -⟩ := standard_calls_fail_as_documented .standard
  have hjoin : Environment.standard.Provides joining :=
    hall joining (Standard.mem_functions_iff.mpr .joining)
  have hnull : ∀ s, Value.null ≠ .string s := nofun
  exact ⟨hjoin, (hfails default).first hjoin ["a"] hnull [.ofNat 1] none⟩

end JsonTemplate
