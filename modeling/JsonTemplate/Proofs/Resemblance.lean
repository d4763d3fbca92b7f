/-
Relations between values that an evaluation keeps. Related values have one form: equal scalars,
lists and entries with related parts, objects that answer alike what they may be asked
(`Value.Form`). Whoever asks them for their parts, an operator or a loop, cannot tell them apart
(`Congruence.apply`, `Congruence.run`). An object is loose if nothing holds of what its type does
not allow.
-/
import JsonTemplate.Proofs.Likeness
import JsonTemplate.Eval.Basic

namespace JsonTemplate

/-- Objects of one type that answer alike. If they are loose, they need to only where their type
allows that they are asked. -/
structure Face.Akin (loose : Prop) (P : Value → Value → Prop) (face face' : Face) : Prop where
  type : face.type = face'.type
  get : (loose → face.type.traits.indexed = true) → ∀ key, Agree P (face.get key) (face'.get key)
  contains : (loose → face.type.traits.container = true) → face.contains = face'.contains
  keys : (loose → face.type.traits.iterable = true) → List.Forall₂ P face.keys face'.keys
  size : (loose → face.type.traits.sized = true) → face.size = face'.size

/-- What may be asked is answered alike, loose or not. -/
theorem Face.Akin.weaken {loose : Prop} {P : Value → Value → Prop} {face face' : Face}
    (h : Akin loose P face face') : Akin True P face face' where
  type := h.type
  get hallowed := h.get fun _ => hallowed trivial
  contains hallowed := h.contains fun _ => hallowed trivial
  keys hallowed := h.keys fun _ => hallowed trivial
  size hallowed := h.size fun _ => hallowed trivial

/-- Values of one form, with parts that `P` relates. Which object stands for which is told by `R`,
and which ones are loose by `loose`. -/
inductive Value.Form (R : Origin → Origin → Prop) (loose : Origin → Prop)
    (P : Value → Value → Prop) : Value → Value → Prop
  | null : Form R loose P .null .null
  | bool (b) : Form R loose P (.bool b) (.bool b)
  | number (n) : Form R loose P (.number n) (.number n)
  | string (s) : Form R loose P (.string s) (.string s)
  | list {items items'} : List.Forall₂ P items items' → Form R loose P (.list items) (.list items')
  | map {entries entries'} : Entries.Related P entries entries' →
    Form R loose P (.map entries) (.map entries')
  | record {a b entries entries'} : R a b → Entries.Related P entries entries' →
    Form R loose P (.record a entries) (.record b entries')
  | host {a b type get get' contains contains' keys keys' size size'} : R a b →
    Face.Akin (loose a) P ⟨a, type, get, contains, keys, size⟩
      ⟨b, type, get', contains', keys', size'⟩ →
    Form R loose P (.host a type get contains keys size) (.host b type get' contains' keys' size')

/-- A relation between values that is decided by their form and their parts. -/
structure Congruence (R : Origin → Origin → Prop) (loose : Origin → Prop)
    (P : Value → Value → Prop) : Prop where
  form : ∀ v v', P v v' ↔ Value.Form R loose P v v'

theorem Value.getKey_related {P : Value → Value → Prop} {entries entries' : Entries Value}
    (h : Entries.Related P entries entries') (key : String) :
    Agree P (Value.getKey entries key) (Value.getKey entries' key) := by
  rw [Value.getKey, Value.getKey]
  have hget := h.get? key
  generalize entries.get? key = x, entries'.get? key = x' at hget ⊢
  cases hget with
  | none => exact .error _
  | some hv => exact .ok hv

namespace Congruence

variable {R : Origin → Origin → Prop} {loose : Origin → Prop} {P : Value → Value → Prop}

/-! ## Equality and text -/

mutual

/-- Related values are equal to related values, if no two objects are mistaken for each other. -/
theorem equal (inv : Congruence R loose P) (hR : Value.Faithful R) :
    ∀ {v v' w w' : Value}, P v v' → P w w' → v.equal w = v'.equal w'
  | .null, _, _, _, hv, hw => by
    cases (inv.form _ _).mp hv; cases (inv.form _ _).mp hw <;> rfl
  | .bool _, _, _, _, hv, hw => by
    cases (inv.form _ _).mp hv; cases (inv.form _ _).mp hw <;> rfl
  | .number _, _, _, _, hv, hw => by
    cases (inv.form _ _).mp hv; cases (inv.form _ _).mp hw <;> rfl
  | .string _, _, _, _, hv, hw => by
    cases (inv.form _ _).mp hv; cases (inv.form _ _).mp hw <;> rfl
  | .list _, _, _, _, hv, hw => by
    cases (inv.form _ _).mp hv with
    | list hitems =>
      cases (inv.form _ _).mp hw with
      | list hothers => exact equalItems inv hR hitems hothers
      | _ => rfl
  | .map _, _, _, _, hv, hw => by
    cases (inv.form _ _).mp hv with
    | map hentries =>
      cases (inv.form _ _).mp hw with
      | map hothers =>
        rw [Value.equal, Value.equal, hentries.length, hothers.length,
          equalEntries inv hR hentries hothers]
      | _ => rfl
  | .record _ _, _, _, _, hv, hw => by
    cases (inv.form _ _).mp hv with
    | record hab _ =>
      cases (inv.form _ _).mp hw with
      | record hcd _ => exact hR.beq hab hcd
      | _ => rfl
  | .host _ _ _ _ _ _, _, _, _, hv, hw => by
    cases (inv.form _ _).mp hv with
    | host hab _ =>
      cases (inv.form _ _).mp hw with
      | host hcd _ => exact hR.beq hab hcd
      | _ => rfl

theorem equalItems (inv : Congruence R loose P) (hR : Value.Faithful R) :
    ∀ {items items' others others' : List Value},
    List.Forall₂ P items items' → List.Forall₂ P others others' →
    Value.equalItems items others = Value.equalItems items' others'
  | [], _, _, _, hv, hw => by cases hv; cases hw <;> rfl
  | _ :: _, _, _, _, hv, hw => by
    cases hv with
    | cons hv hrest =>
      cases hw with
      | nil => rfl
      | cons hw hothers =>
        rw [Value.equalItems, Value.equalItems, equal inv hR hv hw,
          equalItems inv hR hrest hothers]

theorem equalEntries (inv : Congruence R loose P) (hR : Value.Faithful R) :
    ∀ {entries entries' : List (String × Value)} {others others' : Entries Value},
    Entries.Related P entries entries' → Entries.Related P others others' →
    Value.equalEntries entries others = Value.equalEntries entries' others'
  | [], _, _, _, hv, _ => by cases hv; rfl
  | (key, _) :: _, _, others, others', hv, hw => by
    cases hv with
    | cons _ hv hrest =>
      rw [Value.equalEntries, Value.equalEntries, equalEntries inv hR hrest hw]
      have hget := hw.get? key
      generalize others.get? key = x, others'.get? key = x' at hget ⊢
      cases hget with
      | none => rfl
      | some hother => exact congrArg (· && _) (equal inv hR hv hother)

end

mutual

theorem display (inv : Congruence R loose P) : ∀ {v v' : Value}, P v v' → v.display = v'.display
  | .null, _, h | .bool _, _, h | .number _, _, h | .string _, _, h | .record _ _, _, h
  | .host _ _ _ _ _ _, _, h => by cases (inv.form _ _).mp h; rfl
  | .list _, _, h => by
    cases (inv.form _ _).mp h with
    | list hitems => rw [Value.display, Value.display, displayItems inv hitems]
  | .map _, _, h => by
    cases (inv.form _ _).mp h with
    | map hentries => rw [Value.display, Value.display, displayEntries inv hentries]

theorem displayItems (inv : Congruence R loose P) : ∀ {items items' : List Value},
    List.Forall₂ P items items' → Value.displayItems items = Value.displayItems items'
  | [], _, h => by cases h; rfl
  | _ :: _, _, h => by
    cases h with
    | cons hv hrest =>
      rw [Value.displayItems, Value.displayItems, display inv hv, displayItems inv hrest]

theorem displayEntries (inv : Congruence R loose P) : ∀ {entries entries' : List (String × Value)},
    Entries.Related P entries entries' →
    Value.displayEntries entries = Value.displayEntries entries'
  | [], _, h => by cases h; rfl
  | (_, _) :: _, _, h => by
    cases h with
    | cons _ hv hrest =>
      rw [Value.displayEntries, Value.displayEntries, display inv hv, displayEntries inv hrest]

end

section Write

variable {α : Type} (w : Document.Writer α)

mutual

/-- **Related values are written alike** where no object is loose: a writer is told how many entries
an object has, whatever its type advertises. -/
theorem write (inv : Congruence R loose P) (hloose : ∀ a, ¬ loose a) :
    ∀ {v v' : Value}, P v v' → v.write w = v'.write w
  | .null, _, h | .bool _, _, h | .number _, _, h | .string _, _, h => by
    cases (inv.form _ _).mp h; rfl
  | .list _, _, h => by
    cases (inv.form _ _).mp h with
    | list hitems => rw [Value.write, Value.write, writeItems inv hloose hitems]
  | .map _, _, h => by
    cases (inv.form _ _).mp h with
    | map hentries =>
      rw [Value.write, Value.write, writeEntries inv hloose hentries, hentries.length]
  | .record _ _, _, h => by
    cases (inv.form _ _).mp h with
    | record _ hentries =>
      rw [Value.write, Value.write, writeEntries inv hloose hentries, hentries.length]
  | .host a type get _ keys size, _, h => by
    cases (inv.form _ _).mp h with
    | @host _ _ _ _ get' _ _ _ keys' _ size' _ hface =>
      obtain rfl : size = size' := hface.size fun ha => absurd ha (hloose a)
      have hresult (key : String) :
          Value.writeResult w (get key) = Value.writeResult w (get' key) :=
        writeResult inv hloose (x := get key) (hface.get (fun ha => absurd ha (hloose a)) key)
      rw [Value.write, Value.write]
      split
      · congr 1
        refine Value.mapM_congr (hface.keys fun ha => absurd ha (hloose a)) fun k k' hk => ?_
        cases (inv.form _ _).mp hk with
        | string key => simp only [hresult key]
        | _ => rfl
      · rfl
termination_by structural v => v

theorem writeResult (inv : Congruence R loose P) (hloose : ∀ a, ¬ loose a) :
    ∀ {x x' : Except Failure Value},
    Agree P x x' → Value.writeResult w x = Value.writeResult w x'
  | .error _, _, h => by cases h; rfl
  | .ok _, _, h => by
    cases h with
    | ok hv => exact write inv hloose hv
termination_by structural x => x

theorem writeItems (inv : Congruence R loose P) (hloose : ∀ a, ¬ loose a) :
    ∀ {items items' : List Value},
    List.Forall₂ P items items' → Value.writeItems w items = Value.writeItems w items'
  | [], _, h => by cases h; rfl
  | _ :: _, _, h => by
    cases h with
    | cons hv hrest =>
      rw [Value.writeItems, Value.writeItems, write inv hloose hv, writeItems inv hloose hrest]
termination_by structural items => items

theorem writeEntries (inv : Congruence R loose P) (hloose : ∀ a, ¬ loose a) :
    ∀ {entries entries' : List (String × Value)}, Entries.Related P entries entries' →
      Value.writeEntries w entries = Value.writeEntries w entries'
  | [], _, h => by cases h; rfl
  | (_, _) :: _, _, h => by
    cases h with
    | cons _ hv hrest =>
      rw [Value.writeEntries, Value.writeEntries, write inv hloose hv,
        writeEntries inv hloose hrest]
termination_by structural entries => entries

end

end Write

section

variable (inv : Congruence R loose P)

include inv

/-! ## Forms -/

theorem null : P .null .null := (inv.form _ _).mpr .null

theorem bool (b : Bool) : P (.bool b) (.bool b) := (inv.form _ _).mpr (.bool b)

theorem number (n : Binary64) : P (.number n) (.number n) := (inv.form _ _).mpr (.number n)

theorem string (s : String) : P (.string s) (.string s) := (inv.form _ _).mpr (.string s)

theorem list {items items' : List Value} (h : List.Forall₂ P items items') :
    P (.list items) (.list items') := (inv.form _ _).mpr (.list h)

theorem map {entries entries' : Entries Value} (h : Entries.Related P entries entries') :
    P (.map entries) (.map entries') := (inv.form _ _).mpr (.map h)

theorem ofLiteral (l : Literal) : P (.ofLiteral l) (.ofLiteral l) := by
  cases l with
  | null => exact inv.null
  | bool b => exact inv.bool b
  | number n => exact inv.number n
  | string s => exact inv.string s

theorem strings (keys : List String) :
    List.Forall₂ P (keys.map .string) (keys.map .string) := by
  induction keys with
  | nil => exact .nil
  | cons key _ ih => exact .cons (inv.string key) ih

theorem typeName {v v' : Value} (h : P v v') : v.typeName = v'.typeName := by
  have hform := (inv.form _ _).mp h
  cases hform <;> rfl

theorem mapKey {v v' : Value} (h : P v v') : v.mapKey = v'.mapKey := by
  have hform := (inv.form _ _).mp h
  cases hform <;> rfl

/-! ## Asking for parts -/

theorem face? {v v' : Value} (h : P v v') : Option.Rel (Face.Akin True P) v.face? v'.face? := by
  cases (inv.form _ _).mp h with
  | @record _ _ entries entries' _ hentries =>
    have hkeys : entries.keys = entries'.keys := hentries.keys
    refine .some ⟨rfl, fun _ => Value.getKey_related hentries, fun _ => hentries.contains,
      fun _ => ?_, fun _ => hentries.length⟩
    show List.Forall₂ P (entries.keys.map .string) (entries'.keys.map .string)
    rw [hkeys]
    exact inv.strings _
  | host _ hface => exact .some hface.weaken
  | _ => exact .none

/-- Either value is an object whose type allows something, or neither is. -/
theorem allowing? {v v' : Value} (h : P v v') (allows : Traits → Bool) :
    Option.Rel (fun face face' => Face.Akin True P face face' ∧ allows face.type.traits = true)
      (v.allowing? allows) (v'.allowing? allows) := by
  rw [Value.allowing?, Value.allowing?]
  have hface := inv.face? h
  generalize v.face? = x, v'.face? = x' at hface ⊢
  cases hface with
  | none => exact .none
  | some hface =>
    simp only [Option.filter, ← hface.type]
    split
    · rename_i hallows
      exact .some ⟨hface, hallows⟩
    · exact .none

theorem answer {α β : Type} {Q : α → β → Prop} {v v' : Value} (h : P v v')
    (allows : Traits → Bool) {f : Face → Except Failure α} {g : Face → Except Failure β}
    (hfg : ∀ face face', Face.Akin True P face face' → allows face.type.traits = true →
      Agree Q (f face) (g face')) {e e' : Failure} (he : e = e') :
    Agree Q (v.answer allows f e) (v'.answer allows g e') := by
  subst he
  have hface := inv.allowing? h allows
  rw [Value.answer, Value.answer]
  generalize v.allowing? allows = x, v'.allowing? allows = x' at hface ⊢
  cases hface with
  | none => exact .error e
  | some hface => exact hfg _ _ hface.1 hface.2

theorem select {v v' : Value} (h : P v v') (field : String) :
    Agree P (v.select field) (v'.select field) := by
  have hanswer := inv.answer h Traits.indexed
    (fun _ _ hface hallows => hface.get (fun _ => hallows) field)
    (e := .of (.unexpected "map or object" v.typeName)) rfl
  cases (inv.form _ _).mp h with
  | map hentries => exact Value.getKey_related hentries field
  | _ => exact hanswer

theorem item {items items' : List Value} (h : List.Forall₂ P items items') {i i' : Value}
    (hi : P i i') : Agree P (Value.item items i) (Value.item items' i') := by
  cases (inv.form _ _).mp hi with
  | number n =>
    simp only [Value.item, h.length_eq]
    split
    · exact .error _
    · split
      · exact .error _
      · rename_i i _ _
        have hget := Value.forall₂_getElem? h i.toNat
        generalize items[i.toNat]? = x, items'[i.toNat]? = x' at hget ⊢
        cases hget with
        | none => exact .error _
        | some hv => exact .ok hv
  | _ => exact .error _

theorem index {v v' i i' : Value} (h : P v v') (hi : P i i') :
    Agree P (v.index i) (v'.index i') := by
  -- Both are asked for the same key, once there is one.
  have hkey {f g : String → Except Failure Value} (hfg : ∀ key, Agree P (f key) (g key)) :
      Agree P (i.mapKey >>= f) (i'.mapKey >>= g) := by
    rw [inv.mapKey hi]
    exact .bind_same hfg
  have hanswer := inv.answer h Traits.indexed
    (fun _ _ hface hallows => hkey (hface.get fun _ => hallows))
    (e := .of (.unexpected "list, map or object" v.typeName)) rfl
  cases (inv.form _ _).mp h with
  | list hitems => exact inv.item hitems hi
  | map hentries => exact hkey (Value.getKey_related hentries)
  | _ => exact hanswer

theorem hasField {v v' : Value} (h : P v v') (field : String) :
    v.hasField field = v'.hasField field := by
  have hanswer := inv.answer h Traits.container (Q := Eq)
    (fun _ _ hface hallows => .ok (congrFun (hface.contains fun _ => hallows) field))
    (e := .of (.noSuchOverload "has" [v.typeName])) rfl
  cases (inv.form _ _).mp h with
  | map hentries => exact congrArg Except.ok (congrFun hentries.contains field)
  | _ => exact hanswer.eq

theorem rangeItems {v v' : Value} (h : P v v') :
    Agree (List.Forall₂ P) v.rangeItems v'.rangeItems := by
  have hanswer := inv.answer h Traits.iterable
    (fun _ _ hface hallows => .ok (hface.keys fun _ => hallows))
    (e := .of (.unexpected "list, map or iterable object" v.typeName)) rfl
  cases (inv.form _ _).mp h with
  | list hitems => exact .ok hitems
  | map hentries =>
    rw [Value.rangeItems, Value.rangeItems, hentries.keys]
    exact .ok (inv.strings _)
  | _ => exact hanswer

theorem any_equal (hR : Value.Faithful R) {items items' : List Value}
    (h : List.Forall₂ P items items') {v v' : Value} (hv : P v v') :
    (items.any fun other => other.equal v) = items'.any fun other => other.equal v' := by
  induction h with
  | nil => rfl
  | cons hitem _ ih => rw [List.any_cons, List.any_cons, inv.equal hR hitem hv, ih]

theorem contains (hR : Value.Faithful R) {v v' i i' : Value} (h : P v v') (hi : P i i') :
    v.contains i = v'.contains i' := by
  have hanswer := inv.answer h Traits.container (Q := Eq)
    (f := fun face => do return face.contains (← i.mapKey))
    (g := fun face => do return face.contains (← i'.mapKey))
    (fun _ _ hface hallows => by
      rw [hface.contains fun _ => hallows, inv.mapKey hi]
      exact .same _ fun _ => rfl)
    (congrArg (fun types => Failure.of (.noSuchOverload "_in_" types))
      (congrArg₂ (fun a b => [a, b]) (inv.typeName hi) (inv.typeName h)))
  cases (inv.form _ _).mp h with
  | list hitems => exact congrArg Except.ok (inv.any_equal hR hitems hi)
  | map hentries => rw [Value.contains, Value.contains, inv.mapKey hi, hentries.contains]
  | _ => exact hanswer.eq

/-! ## Operators -/

theorem condition {x y : Outcome Value} (h : Agree P x y) (span : Span) :
    x.condition span = y.condition span := by
  cases h with
  | error i => rfl
  | ok hv => cases (inv.form _ _).mp hv <;> rfl

theorem unary (op : UnaryOp) {v v' : Value} (h : P v v') : Agree P (op.apply v) (op.apply v') := by
  cases (inv.form _ _).mp h with
  | bool b => cases op with
    | not => exact .ok (inv.bool _)
    | neg => exact .error _
  | number n => cases op with
    | not => exact .error _
    | neg => exact .ok (inv.number _)
  | _ => cases op <;> exact .error _

variable {a a' b b' : Value}

theorem refuse {Q : Value → Value → Prop} (op : BinaryOp) (ha : P a a') (hb : P b b') :
    Agree Q (op.refuse a b) (op.refuse a' b') := by
  rw [BinaryOp.refuse, BinaryOp.refuse, inv.typeName ha, inv.typeName hb]
  exact .error _

theorem order? (ha : P a a') (hb : P b b') : BinaryOp.order? a b = BinaryOp.order? a' b' := by
  cases (inv.form _ _).mp ha <;> cases (inv.form _ _).mp hb <;> rfl

theorem comparison (op : BinaryOp) (ha : P a a') (hb : P b b') :
    Agree P (op.comparison a b) (op.comparison a' b') := by
  rw [BinaryOp.comparison, BinaryOp.comparison, inv.order? ha hb]
  split
  · exact .ok (inv.bool _)
  · exact .ok (inv.bool _)
  · exact inv.refuse op ha hb

theorem arithmetic (op : BinaryOp) (ha : P a a') (hb : P b b') :
    Agree P (op.arithmetic a b) (op.arithmetic a' b') := by
  have hrefuse := inv.refuse (Q := P) op ha hb
  cases (inv.form _ _).mp ha with
  | number m =>
    cases (inv.form _ _).mp hb with
    | number n =>
      simp only [BinaryOp.arithmetic]
      split
      · exact .ok (inv.number _)
      · exact .ok (inv.number _)
      · split
        · exact .error _
        · exact .ok (inv.number _)
      · split
        · exact .error _
        · exact .ok (inv.number _)
      · exact .error _
    | _ => exact hrefuse
  | _ => exact hrefuse

theorem addition (ha : P a a') (hb : P b b') :
    Agree P (BinaryOp.addition a b) (BinaryOp.addition a' b') := by
  have hrefuse := inv.refuse (Q := P) .add ha hb
  cases (inv.form _ _).mp ha with
  | number m =>
    cases (inv.form _ _).mp hb with
    | number n => exact .ok (inv.number _)
    | _ => exact hrefuse
  | string s =>
    cases (inv.form _ _).mp hb with
    | string t => exact .ok (inv.string _)
    | _ => exact hrefuse
  | list hitems =>
    cases (inv.form _ _).mp hb with
    | list hothers => exact .ok (inv.list (List.rel_append hitems hothers))
    | _ => exact hrefuse
  | _ => exact hrefuse

theorem binary (op : BinaryOp) (hR : Value.Faithful R) (ha : P a a') (hb : P b b') :
    Agree P (op.apply a b) (op.apply a' b') := by
  cases op with
  | eq | ne =>
    rw [BinaryOp.apply, BinaryOp.apply, inv.equal hR ha hb]
    exact .ok (inv.bool _)
  | mem =>
    rw [BinaryOp.apply, BinaryOp.apply, inv.contains hR hb ha]
    exact .bind_same fun _ => .ok (inv.bool _)
  | lt | le | gt | ge => exact inv.comparison _ ha hb
  | add => exact inv.addition ha hb
  | sub => exact inv.arithmetic .sub ha hb
  | mul => exact inv.arithmetic .mul ha hb
  | div => exact inv.arithmetic .div ha hb
  | rem => exact inv.arithmetic .rem ha hb
  | or | and => exact inv.refuse _ ha hb

/-- **An operator cannot tell related outcomes of its operands from each other.** -/
theorem outcome (op : BinaryOp) (hR : Value.Faithful R) (leftSpan rightSpan : Span)
    {left left' : Outcome Value} {right right' : Unit → Outcome Value}
    (hleft : Agree P left left') (hright : Agree P (right ()) (right' ())) :
    Agree P (op.outcome leftSpan rightSpan left right)
      (op.outcome leftSpan rightSpan left' right') := by
  unfold BinaryOp.outcome
  split
  · have hcondition : (fun u => (right u).condition rightSpan) =
        fun u => (right' u).condition rightSpan := funext fun _ => inv.condition hright rightSpan
    rw [inv.condition hleft, hcondition]
    exact .bind_same fun _ => .ok (inv.bool _)
  · exact hleft.bind fun _ _ ha => hright.bind fun _ _ hb => inv.binary op hR ha hb

theorem range (span : Span) {v v' : Value} (h : P v v') :
    Agree (List.Forall₂ P) (v.range span) (v'.range span) := by
  have hitems := inv.rangeItems h
  rw [Value.range, Value.range]
  generalize v.rangeItems = x, v'.rangeItems = x' at hitems ⊢
  cases hitems with
  | ok hitems => exact .ok hitems
  | error f => exact .error _

end

end Congruence

/-! ## Loops -/

section Loops

variable {P : Value → Value → Prop} {test test' : Loop.Step Bool} {image image' : Loop.Step Value}
  {items items' : List Value}

namespace Loop

theorem filter_related (htest : ∀ n v v', P v v' → test n v = test' n v')
    (h : List.Forall₂ P items items') (number : Nat) :
    Agree (List.Forall₂ P) (filter test number items) (filter test' number items') := by
  induction h generalizing number with
  | nil => exact .ok .nil
  | cons hitem _ ih =>
    rw [filter, filter, htest number _ _ hitem]
    refine .bind_same fun keep => (ih (number + 1)).bind fun _ _ hothers => ?_
    cases keep with
    | true => exact .ok (.cons hitem hothers)
    | false => exact .ok hothers

theorem collect_related (htest : ∀ n v v', P v v' → test n v = test' n v')
    (himage : ∀ n v v', P v v' → Agree P (image n v) (image' n v'))
    (h : List.Forall₂ P items items') (number : Nat) :
    Agree (List.Forall₂ P) (collect test image number items)
      (collect test' image' number items') := by
  induction h generalizing number with
  | nil => exact .ok .nil
  | cons hitem _ ih =>
    rw [collect, collect, htest number _ _ hitem]
    refine .bind_same fun keep => ?_
    cases keep with
    | true =>
      exact (himage number _ _ hitem).bind fun _ _ hfirst =>
        (ih (number + 1)).bind fun _ _ hothers => .ok (.cons hfirst hothers)
    | false => exact ih (number + 1)

theorem count_related (htest : ∀ n v v', P v v' → test n v = test' n v')
    (h : List.Forall₂ P items items') (number : Nat) :
    count test number items = count test' number items' := by
  induction h generalizing number with
  | nil => rfl
  | cons hitem _ ih => rw [count, count, htest number _ _ hitem, ih]

theorem decide_related (decisive : Bool) (htest : ∀ n v v', P v v' → test n v = test' n v')
    (h : List.Forall₂ P items items') (number : Nat) :
    decide decisive test number items = decide decisive test' number items' := by
  induction h generalizing number with
  | nil => rfl
  | cons hitem _ ih => rw [decide, decide, htest number _ _ hitem, ih]

end Loop

/-- **A loop whose test cannot tell related items from each other gives related values.** -/
theorem Congruence.run {R : Origin → Origin → Prop} {loose : Origin → Prop}
    (inv : Congruence R loose P) (q : Quantifier)
    (htest : ∀ n v v', P v v' → test n v = test' n v') (h : List.Forall₂ P items items') :
    Agree P (q.run test items) (q.run test' items') := by
  cases q with
  | filter => exact (Loop.filter_related htest h 0).bind fun _ _ hout => .ok (inv.list hout)
  | all =>
    rw [Quantifier.run, Quantifier.run, Loop.decide_related false htest h]
    exact .bind_same fun _ => .ok (inv.bool _)
  | any =>
    rw [Quantifier.run, Quantifier.run, Loop.decide_related true htest h]
    exact .bind_same fun _ => .ok (inv.bool _)
  | one =>
    rw [Quantifier.run, Quantifier.run, Loop.count_related htest h]
    exact .bind_same fun _ => .ok (inv.bool _)

end Loops

end JsonTemplate
