/-
Invariants of evaluation. `P` is to hold of every value and `Q` of every interrupt: if both go
through what values answer about their parts (`Closed`), `Q` does not mind where a failure is
placed (`Invariant`), and the names and functions an expression asks for keep them (`Keeps`), then
so does the expression (`eval_keeps`), whatever its operators absorb on the way.
-/
import JsonTemplate.Proofs.Names
import JsonTemplate.Proofs.Outcome

namespace JsonTemplate

/-! ## Causes -/

namespace Cause

/-- The operators that refuse operands, and `size`, which refuses its own. -/
def refusing : List String :=
  ["has", "size", "!_", "-_"] ++ [BinaryOp.or, .and, .eq, .ne, .lt, .le, .gt, .ge, .mem, .add,
    .sub, .mul, .div, .rem].map fun op => s!"_{op.symbol}_"

/-- What an operation may have expected of a value that it was given. -/
def expectations : List String :=
  ["string key", "number index", "map or object", "list, map or object",
    "list, map or iterable object", "bool", "string", "number", "list", "any",
    "non-negative integer", "list of strings", "fragment name"]

/-- The targets of conversions. -/
def targets : List String := ["string", "int", "double", "bool"]

/-- The parameters that the typed functions read. -/
def parameters : List String := ["items", "text", "n", "value", "count"]

/-- The causes that operators and library functions raise over values of `P`. None of them is an
undeclared name. -/
inductive Raised (P : Value → Prop) : Cause → Prop
  | noSuchKey (key : String) : Raised P (.noSuchKey key)
  | refused {name : String} (values : List Value) : name ∈ refusing → (∀ v ∈ values, P v) →
      Raised P (.noSuchOverload name (values.map Value.typeName))
  | unexpected {expected : String} {v : Value} : expected ∈ expectations → P v →
      Raised P (.unexpected expected v.typeName)
  | fractionalIndex (n : Binary64) : Raised P (.unexpected "integer index" n.display)
  | noFragmentName : Raised P (.unexpected "fragment name" "nothing")
  | missingPosition (position : Nat) : Raised P (.missingPosition position)
  | missingParameter {role name : String} : role ∈ ["argument", "receiver"] →
      name ∈ parameters → Raised P (.missingParameter role name)
  | indexOutOfRange (index : Binary64) (length : Nat) : Raised P (.indexOutOfRange index length)
  | sliceOutOfRange (start stop length : Nat) : Raised P (.sliceOutOfRange start stop length)
  | divisionByZero : Raised P .divisionByZero
  | modulusByZero : Raised P .modulusByZero
  | conversion {v : Value} {target : String} : P v → target ∈ targets →
      Raised P (.conversion v.typeName target)
  | fragmentNotFound (name : String) : Raised P (.fragmentNotFound name)
  | emptyList : Raised P (.stated .host "empty list")

theorem Raised.kind_ne {P : Value → Prop} {cause : Cause} (h : cause.Raised P) :
    cause.kind ≠ .undeclaredReference := by
  cases h <;> exact nofun

end Cause

/-! ## Operations on values -/

/-- `P` goes from a value to its parts and back, and whatever may stop an operation on values of
`P` satisfies `Q`. -/
structure Closed (P : Value → Prop) (Q : Interrupt → Prop) : Prop where
  literal : ∀ l, P (.ofLiteral l)
  list : ∀ items, P (.list items) ↔ ∀ v ∈ items, P v
  ofMap : ∀ pairs, (∀ pair ∈ pairs, P pair.2) → P (.ofMap pairs)
  record : ∀ origin pairs, (∀ pair ∈ pairs, P pair.2) → P (.record origin (Entries.ofPairs pairs))
  entry : ∀ entries key v, P (.map entries) → Entries.get? entries key = some v → P v
  get : ∀ v face key, P v → v.face? = some face →
    Satisfies P (fun f => Q (.failed f)) (face.get key)
  keys : ∀ v face, P v → v.face? = some face → ∀ k ∈ face.keys, P k
  failed : ∀ cause beneath, cause.Raised P → Q (.failed ⟨cause, none, beneath⟩)

/-- What is closed under operations and under placing a failure. -/
structure Invariant (P : Value → Prop) (Q : Interrupt → Prop) : Prop extends Closed P Q where
  withSpan : ∀ f span, Q (.failed f) → Q (.failed (f.withSpan span))

theorem Value.face?_of_allowing? {v : Value} {allows : Traits → Bool} {face : Face}
    (h : v.allowing? allows = some face) : v.face? = some face :=
  (Option.filter_eq_some_iff.mp h).1

/-- A record answers with the value of one of its entries, or it has no such key. -/
theorem Face.get_ofEntries {P : Value → Prop} {Q : Failure → Prop} {entries : Entries Value}
    (hvalues : ∀ pair ∈ entries, P pair.2) {key : String} (hmissing : Q (.of (.noSuchKey key)))
    (made : Origin) : Satisfies P Q ((Face.ofEntries made entries).get key) := by
  dsimp only [Face.ofEntries]
  split
  · rename_i hget
    exact hvalues _ (Entries.mem_of_get? hget)
  · exact hmissing

namespace Closed

variable {P : Value → Prop} {Q : Interrupt → Prop} (inv : Closed P Q)

include inv

theorem raise {α : Type} {R : α → Prop} {cause : Cause} (h : cause.Raised P) :
    Satisfies R Q (Outcome.raise cause) := inv.failed _ _ h

theorem refused {α : Type} {R : α → Prop} {cause : Cause} (h : cause.Raised P) :
    Satisfies R (fun f => Q (.failed f)) (.error (.of cause)) := inv.failed _ _ h

theorem bool (b : Bool) : P (.bool b) := inv.literal (.bool b)

theorem number (n : Binary64) : P (.number n) := inv.literal (.number n)

theorem string (s : String) : P (.string s) := inv.literal (.string s)

/-! ## Parts of values -/

theorem mapKey {v : Value} (hv : P v) :
    Satisfies (fun _ => True) (fun f => Q (.failed f)) v.mapKey := by
  unfold Value.mapKey
  split
  · trivial
  · split
    · trivial
    · exact inv.refused (.unexpected (by decide) hv)
  · trivial
  · exact inv.refused (.unexpected (by decide) hv)

theorem getKey {entries : Entries Value} {key : String} (h : P (.map entries)) :
    Satisfies P (fun f => Q (.failed f)) (Value.getKey entries key) := by
  unfold Value.getKey
  split
  · rename_i hget
    exact inv.entry _ _ _ h hget
  · exact inv.refused (.noSuchKey key)

theorem select {v : Value} (hv : P v) (field : String) :
    Satisfies P (fun f => Q (.failed f)) (v.select field) := by
  unfold Value.select
  split
  · exact inv.getKey hv
  · split
    · rename_i hface
      exact inv.get _ _ _ hv (Value.face?_of_allowing? hface)
    · exact inv.refused (.unexpected (by decide) hv)

theorem item {items : List Value} (h : ∀ v ∈ items, P v) {index : Value} (hindex : P index) :
    Satisfies P (fun f => Q (.failed f)) (Value.item items index) := by
  unfold Value.item
  split
  · split
    · exact inv.refused (.fractionalIndex _)
    · split
      · exact inv.refused (.indexOutOfRange ..)
      · split
        · rename_i hget
          exact h _ (List.mem_of_getElem? hget)
        · exact inv.refused (.indexOutOfRange ..)
  · exact inv.refused (.unexpected (by decide) hindex)

theorem index {v i : Value} (hv : P v) (hi : P i) :
    Satisfies P (fun f => Q (.failed f)) (v.index i) := by
  unfold Value.index
  split
  · exact inv.item ((inv.list _).mp hv) hi
  · exact (inv.mapKey hi).bind fun key _ => inv.getKey hv
  · split
    · rename_i hface
      exact (inv.mapKey hi).bind fun key _ => inv.get _ _ _ hv (Value.face?_of_allowing? hface)
    · exact inv.refused (.unexpected (by decide) hv)

theorem hasField {v : Value} (hv : P v) (field : String) :
    Satisfies (fun _ => True) (fun f => Q (.failed f)) (v.hasField field) := by
  unfold Value.hasField
  split
  · trivial
  · split
    · trivial
    · exact inv.refused (.refused [v] (by decide) (by simpa using hv))

theorem contains {v i : Value} (hv : P v) (hi : P i) :
    Satisfies (fun _ => True) (fun f => Q (.failed f)) (v.contains i) := by
  unfold Value.contains
  split
  · trivial
  · exact (inv.mapKey hi).bind fun _ _ => trivial
  · split
    · exact (inv.mapKey hi).bind fun _ _ => trivial
    · exact inv.refused (.refused [i, v] (by decide) (by simp [hv, hi]))

theorem rangeItems {v : Value} (hv : P v) :
    Satisfies (fun items => ∀ i ∈ items, P i) (fun f => Q (.failed f)) v.rangeItems := by
  unfold Value.rangeItems
  split
  · exact (inv.list _).mp hv
  · intro i hi
    obtain ⟨key, -, rfl⟩ := List.mem_map.mp hi
    exact inv.string key
  · split
    · rename_i hface
      exact inv.keys _ _ hv (Value.face?_of_allowing? hface)
    · exact inv.refused (.unexpected (by decide) hv)

/-! ## Operators -/

theorem unary (op : UnaryOp) {v : Value} (hv : P v) : Satisfies P Q (op.apply v) := by
  unfold UnaryOp.apply
  split
  · exact inv.bool _
  · exact inv.number _
  · exact inv.raise (.refused [v] (by cases op <;> decide) (by simpa using hv))

theorem refuse (op : BinaryOp) {left right : Value} (hleft : P left) (hright : P right) :
    Satisfies P Q (op.refuse left right : Outcome Value) :=
  inv.raise (.refused [left, right] (by cases op <;> decide) (by simp [hleft, hright]))

theorem binary (op : BinaryOp) {left right : Value} (hleft : P left) (hright : P right) :
    Satisfies P Q (op.apply left right) := by
  have hcomparison : Satisfies P Q (op.comparison left right) := by
    unfold BinaryOp.comparison
    split
    · exact inv.bool _
    · exact inv.bool _
    · exact inv.refuse op hleft hright
  have harithmetic : Satisfies P Q (op.arithmetic left right) := by
    unfold BinaryOp.arithmetic
    split
    · split
      · exact inv.number _
      · exact inv.number _
      · split
        · exact inv.raise .divisionByZero
        · exact inv.number _
      · split
        · exact inv.raise .modulusByZero
        · exact inv.number _
      · exact inv.refuse _ hleft hright
    · exact inv.refuse _ hleft hright
  have haddition : Satisfies P Q (BinaryOp.addition left right) := by
    unfold BinaryOp.addition
    split
    · exact inv.number _
    · exact inv.string _
    · rw [inv.list] at hleft hright
      refine (inv.list _).mpr fun v hv => ?_
      rcases List.mem_append.mp hv with hv | hv
      · exact hleft v hv
      · exact hright v hv
    · exact inv.refuse _ hleft hright
  unfold BinaryOp.apply
  split
  · exact inv.bool _
  · exact inv.bool _
  · exact (Satisfies.ofResult (inv.contains hright hleft)).bind fun b _ => inv.bool b
  all_goals first
    | exact hcomparison
    | exact haddition
    | exact harithmetic
    | exact inv.refuse _ hleft hright

omit inv in
/-- A side that decides needs nothing of the other side. -/
theorem logical {decisive : Bool} {left : Outcome Bool} {right : Unit → Outcome Bool}
    (hleft : Satisfies (fun _ => True) Q left) (hright : Satisfies (fun _ => True) Q (right ())) :
    Satisfies (fun _ => True) Q (JsonTemplate.logical decisive left right) := by
  unfold JsonTemplate.logical
  cases left with
  | ok a =>
    cases h : right () with
    | ok b => dsimp only; split <;> first | trivial | (split <;> trivial)
    | error i =>
      rw [h] at hright
      dsimp only
      split
      · trivial
      · exact hright
  | error i =>
    cases right () with
    | ok b =>
      dsimp only
      split
      · trivial
      · exact hleft
    | error _ => exact hleft

/-- An operator keeps what its operands keep, as values and as conditions. -/
theorem outcome (op : BinaryOp) {leftSpan rightSpan : Span} {left : Outcome Value}
    {right : Unit → Outcome Value} (hleft : Satisfies P Q left) (hright : Satisfies P Q (right ()))
    (hleft' : Satisfies (fun _ => True) Q (left.condition leftSpan))
    (hright' : Satisfies (fun _ => True) Q ((right ()).condition rightSpan)) :
    Satisfies P Q (op.outcome leftSpan rightSpan left right) := by
  unfold BinaryOp.outcome
  split
  · exact (logical hleft' hright').bind fun b _ => inv.bool b
  · exact hleft.bind fun a ha => hright.bind fun b hb => inv.binary op ha hb

/-! ## Loops -/

section Loops

variable {test : Loop.Step Bool} {image : Loop.Step Value} {items : List Value}

omit inv

theorem filter (htest : ∀ n v, P v → Satisfies (fun _ => True) Q (test n v)) :
    ∀ {items : List Value} (n : Nat), (∀ v ∈ items, P v) →
      Satisfies (fun out => ∀ v ∈ out, P v) Q (Loop.filter test n items)
  | [], _, _ => by simp [Loop.filter, Satisfies]
  | item :: rest, n, h => by
    rw [List.forall_mem_cons] at h
    refine (htest n item h.1).bind fun keep _ => (filter htest (n + 1) h.2).bind fun out hout => ?_
    cases keep with
    | true => exact List.forall_mem_cons.mpr ⟨h.1, hout⟩
    | false => exact hout

theorem collect (htest : ∀ n v, P v → Satisfies (fun _ => True) Q (test n v))
    (himage : ∀ n v, P v → Satisfies P Q (image n v)) :
    ∀ {items : List Value} (n : Nat), (∀ v ∈ items, P v) →
      Satisfies (fun out => ∀ v ∈ out, P v) Q (Loop.collect test image n items)
  | [], _, _ => by simp [Loop.collect, Satisfies]
  | item :: rest, n, h => by
    rw [List.forall_mem_cons] at h
    have hrest := collect htest himage (n + 1) h.2
    refine (htest n item h.1).bind fun passes _ => ?_
    cases passes with
    | true =>
      exact (himage n item h.1).bind fun first hfirst => hrest.bind fun out hout =>
        List.forall_mem_cons.mpr ⟨hfirst, hout⟩
    | false => exact hrest

theorem count (htest : ∀ n v, P v → Satisfies (fun _ => True) Q (test n v)) :
    ∀ {items : List Value} (n : Nat), (∀ v ∈ items, P v) →
      Satisfies (fun _ => True) Q (Loop.count test n items)
  | [], _, _ => trivial
  | item :: rest, n, h => by
    rw [List.forall_mem_cons] at h
    exact (htest n item h.1).bind fun _ _ => (count htest (n + 1) h.2).bind fun _ _ => trivial

theorem decide {decisive : Bool} (htest : ∀ n v, P v → Satisfies (fun _ => True) Q (test n v)) :
    ∀ {items : List Value} (n : Nat), (∀ v ∈ items, P v) →
      Satisfies (fun _ => True) Q (Loop.decide decisive test n items)
  | [], _, _ => trivial
  | item :: rest, n, h => by
    rw [List.forall_mem_cons] at h
    have hitem := htest n item h.1
    have hrest : Satisfies (fun _ => True) Q (Loop.decide decisive test (n + 1) rest) :=
      decide htest (n + 1) h.2
    unfold Loop.decide
    cases h : test n item with
    | ok b =>
      dsimp only
      split
      · trivial
      · exact hrest
    | error i =>
      rw [h] at hitem
      cases i with
      | removed => exact hitem
      | failed f =>
        cases h' : Loop.decide decisive test (n + 1) rest with
        | ok b =>
          dsimp only
          split
          · trivial
          · exact hitem
        | error i =>
          rw [h'] at hrest
          cases i with
          | removed => exact hrest
          | failed _ => exact hitem

include inv

theorem run (q : Quantifier) (htest : ∀ n v, P v → Satisfies (fun _ => True) Q (test n v))
    (h : ∀ v ∈ items, P v) : Satisfies P Q (q.run test items) := by
  unfold Quantifier.run
  split
  · exact (filter htest 0 h).bind fun out hout => (inv.list out).mpr hout
  · exact (decide htest 0 h).bind fun b _ => inv.bool b
  · exact (decide htest 0 h).bind fun b _ => inv.bool b
  · exact (count htest 0 h).bind fun n _ => inv.bool _

end Loops

end Closed

namespace Invariant

variable {P : Value → Prop} {Q : Interrupt → Prop} (inv : Invariant P Q)

include inv

theorem located {α : Type} {R : α → Prop} {span : Span} {x : Outcome α} (h : Satisfies R Q x) :
    Satisfies R Q (Outcome.located span x) := by
  rcases x with (_ | f) | a
  · exact h
  · obtain ⟨cause, _ | s, beneath⟩ := f
    · exact inv.withSpan _ span h
    · exact h
  · exact h

theorem range {v : Value} (hv : P v) (span : Span) :
    Satisfies (fun items => ∀ i ∈ items, P i) Q (v.range span) := by
  have hitems := inv.rangeItems hv
  unfold Value.range
  cases h : v.rangeItems with
  | ok items => rw [h] at hitems; exact hitems
  | error f => rw [h] at hitems; exact inv.withSpan f span hitems

theorem condition {x : Outcome Value} {span : Span} (h : Satisfies P Q x) :
    Satisfies (fun _ => True) Q (x.condition span) := by
  unfold Outcome.condition
  split
  · trivial
  · exact inv.withSpan _ _ (inv.failed _ _ (.unexpected (by decide) h))
  · exact h

theorem outcome (op : BinaryOp) {leftSpan rightSpan : Span} {left : Outcome Value}
    {right : Unit → Outcome Value} (hleft : Satisfies P Q left)
    (hright : Satisfies P Q (right ())) :
    Satisfies P Q (op.outcome leftSpan rightSpan left right) :=
  inv.toClosed.outcome op hleft hright (inv.condition hleft) (inv.condition hright)

end Invariant

/-! ## Evaluation -/

/-- The functions and names of a setting keep an invariant. -/
structure Keeps (P : Value → Prop) (Q : Interrupt → Prop) (env : Environment) (context : Context)
    (calls free : List String) : Prop where
  call : ∀ name ∈ calls, ∀ origin receiver args, (∀ v ∈ receiver, P v) → (∀ v ∈ args, P v) →
    Satisfies P Q (env.call name origin receiver args)
  name : ∀ x ∈ free, Satisfies P Q (context.resolve x)

section Keeps

variable {P : Value → Prop} {Q : Interrupt → Prop} {env : Environment} {context : Context}

theorem Keeps.mono {calls calls' free free' : List String} (h : Keeps P Q env context calls free)
    (hcalls : calls' ⊆ calls) (hfree : free' ⊆ free) : Keeps P Q env context calls' free' :=
  ⟨fun name hmem => h.call name (hcalls hmem), fun x hmem => h.name x (hfree hmem)⟩

theorem Keeps.bind {calls free : List String} {name : String}
    (h : Keeps P Q env context calls (free.filter (· ≠ name))) {value : Value} (hvalue : P value) :
    Keeps P Q env (context.bind name value) calls free := by
  refine ⟨h.call, fun x hmem => ?_⟩
  by_cases hx : x = name
  · simpa [Context.resolve, Context.bind, hx, Satisfies] using hvalue
  · simpa only [Context.resolve, Context.bind, if_neg hx] using h.name x (by simp [hmem, hx])

namespace Expr

mutual

/-- **An expression keeps every invariant that what it asks for keeps.** -/
theorem eval_keeps (inv : Invariant P Q) : ∀ (e : Expr) (origin : Origin) {context : Context},
    Keeps P Q env context e.calls e.free → Satisfies P Q (e.eval env origin context)
  | literal _ l, _, _, h => inv.literal l
  | list _ items, origin, _, h => by
    rw [eval]
    exact inv.located ((evalItems_keeps inv items origin 0 h).bind fun out hout =>
      (inv.list out).mpr hout)
  | dict _ entries, origin, _, h => by
    rw [eval]
    exact inv.located ((evalEntries_keeps inv entries origin 0 h).bind fun out hout =>
      inv.ofMap out hout)
  | ident _ name, _, _, h => by
    rw [eval]
    exact inv.located (h.name name (by simp [free]))
  | select _ operand field, origin, _, h => by
    rw [eval]
    exact inv.located ((eval_keeps inv operand _ h).bind fun v hv =>
      Satisfies.ofResult (inv.select hv field))
  | index _ operand i, origin, _, h => by
    rw [eval]
    exact inv.located
      ((eval_keeps inv operand _ (h.mono (by simp [calls]) (by simp [free]))).bind fun v hv =>
        (eval_keeps inv i _ (h.mono (by simp [calls]) (by simp [free]))).bind fun k hk =>
          Satisfies.ofResult (inv.index hv hk))
  | call _ target function args, origin, _, h => by
    have htarget := evalOptional_keeps inv target (origin.child 0)
      (h.mono (by simp [calls]) (by simp [free]))
    have hargs := evalItems_keeps inv args origin 2 (h.mono (by simp [calls]) (by simp [free]))
    rw [eval]
    exact inv.located (htarget.bind fun receiver hreceiver => hargs.bind fun values hvalues =>
      h.call function (by simp [calls]) _ _ _ hreceiver hvalues)
  | has _ operand field, origin, _, h => by
    rw [eval]
    exact inv.located ((eval_keeps inv operand _ h).bind fun v hv =>
      (Satisfies.ofResult (inv.hasField hv field)).bind fun b _ => inv.bool b)
  | quantify _ q range name test, origin, _, h => by
    have hrange := eval_keeps inv range (origin.child 0) (h.mono (by simp [calls]) (by simp [free]))
    rw [eval]
    refine inv.located (hrange.bind fun v hv => (inv.range hv _).bind fun items hitems =>
      inv.run q (fun n v hv => ?_) hitems)
    exact inv.condition (eval_keeps inv test _
      ((h.mono (by simp [calls]) (by simp [free])).bind hv))
  | collect _ range name test image, origin, _, h => by
    have hrange := eval_keeps inv range (origin.child 0) (h.mono (by simp [calls]) (by simp [free]))
    rw [eval]
    refine inv.located (hrange.bind fun v hv => (inv.range hv _).bind fun items hitems =>
      (Closed.collect (fun n v hv => ?_) (fun n v hv => ?_) 0 hitems).bind fun out hout =>
        (inv.list out).mpr hout)
    · exact evalTest_keeps inv test _ ((h.mono (by simp [calls]) (by simp [free])).bind hv)
    · exact eval_keeps inv image _ ((h.mono (by simp [calls]) (by simp [free])).bind hv)
  | conditional _ condition yes no, origin, _, h => by
    have hcondition := eval_keeps inv condition (origin.child 0)
      (h.mono (by simp [calls]) (by simp [free]))
    rw [eval]
    refine inv.located ((inv.condition hcondition).bind fun b _ => ?_)
    cases b with
    | true => exact eval_keeps inv yes _ (h.mono (by simp [calls]) (by simp [free]))
    | false => exact eval_keeps inv no _ (h.mono (by simp [calls]) (by simp [free]))
  | binary _ op left right, origin, _, h => by
    rw [eval]
    exact inv.located (inv.outcome op
      (eval_keeps inv left _ (h.mono (by simp [calls]) (by simp [free])))
      (eval_keeps inv right _ (h.mono (by simp [calls]) (by simp [free]))))
  | unary _ op operand, origin, _, h => by
    rw [eval]
    exact inv.located ((eval_keeps inv operand _ h).bind fun v hv => inv.unary op hv)

theorem evalOptional_keeps (inv : Invariant P Q) : ∀ (e : Option Expr) (origin : Origin)
    {context : Context}, Keeps P Q env context (callsOfOptional e) (freeOptional e) →
      Satisfies (fun v => ∀ a ∈ v, P a) Q (evalOptional env e origin context)
  | none, _, _, _ => by simp [evalOptional, Satisfies]
  | some e, _, _, h => (eval_keeps inv e _ h).bind fun v hv => by simpa [Satisfies] using hv

theorem evalTest_keeps (inv : Invariant P Q) : ∀ (e : Option Expr) (origin : Origin)
    {context : Context}, Keeps P Q env context (callsOfOptional e) (freeOptional e) →
      Satisfies (fun _ => True) Q (evalTest env e origin context)
  | none, _, _, _ => trivial
  | some e, _, _, h => inv.condition (eval_keeps inv e _ h)

theorem evalItems_keeps (inv : Invariant P Q) : ∀ (items : List Expr) (origin : Origin) (part : Nat)
    {context : Context}, Keeps P Q env context (callsOfItems items) (freeItems items) →
      Satisfies (fun out => ∀ v ∈ out, P v) Q (evalItems env items origin part context)
  | [], _, _, _, _ => by simp [evalItems, Satisfies]
  | e :: rest, origin, part, _, h => by
    have hfirst := eval_keeps inv e (origin.child part)
      (h.mono (by simp [callsOfItems]) (by simp [freeItems]))
    have hrest := evalItems_keeps inv rest origin (part + 1)
      (h.mono (by simp [callsOfItems]) (by simp [freeItems]))
    rw [evalItems]
    exact hfirst.bind fun v hv => hrest.bind fun out hout =>
      List.forall_mem_cons.mpr ⟨hv, hout⟩

theorem evalEntries_keeps (inv : Invariant P Q) : ∀ (entries : List (Expr × Expr))
    (origin : Origin) (part : Nat) {context : Context},
    Keeps P Q env context (callsOfEntries entries) (freeEntries entries) →
      Satisfies (fun out => ∀ pair ∈ out, P pair.2) Q
        (evalEntries env entries origin part context)
  | [], _, _, _, _ => by simp [evalEntries, Satisfies]
  | (key, e) :: rest, origin, part, _, h => by
    have hkey := eval_keeps inv key (origin.child part)
      (h.mono (by simp [callsOfEntries]) (by simp [freeEntries]))
    have hvalue := eval_keeps inv e (origin.child (part + 1))
      (h.mono (by simp [callsOfEntries]) (by simp [freeEntries]))
    have hrest := evalEntries_keeps inv rest origin (part + 2)
      (h.mono (by simp [callsOfEntries]) (by simp [freeEntries]))
    rw [evalEntries]
    refine hkey.bind fun v hv => (Satisfies.ofResult (inv.mapKey hv)).bind fun k _ =>
      hvalue.bind fun v hv => hrest.bind fun out hout => ?_
    exact List.forall_mem_cons.mpr ⟨hv, hout⟩

end

end Expr

end Keeps

end JsonTemplate
