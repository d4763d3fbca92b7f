/-
Two runs of one expression on related values. The values that a name stands for are related in the
two contexts, and functions give related values on related ones; then so does the expression, or it
is interrupted by the same (`Simulation.eval`), whatever loops bind and operators absorb on the way.
No standard function tells related values from each other (`Standard.functions_preserve`).
-/
import JsonTemplate.Proofs.Names
import JsonTemplate.Proofs.Resemblance

namespace JsonTemplate

/-! ## Functions -/

/-- At related places and on related values the outcomes agree. -/
def Function.Preserves (places : Origin → Origin → Prop) (P : Value → Value → Prop) (f : Function) :
    Prop :=
  ∀ a b receiver receiver' args args', places a b → Option.Rel P receiver receiver' →
    List.Forall₂ P args args' → Agree P (f.call a receiver args) (f.call b receiver' args')

/-- What a body does wherever it is called. -/
def Standard.Body.Preserves (P : Value → Value → Prop) (body : Body) : Prop :=
  ∀ receiver receiver' args args', Option.Rel P receiver receiver' →
    List.Forall₂ P args args' → Agree P (body receiver args) (body receiver' args')

section Calls

variable {R : Origin → Origin → Prop} {loose : Origin → Prop} {P : Value → Value → Prop}
  (inv : Congruence R loose P) {receiver receiver' : Option Value} {args args' : List Value}

include inv

namespace Congruence

theorem matchesType (t : ValueType) {v v' : Value} (h : P v v') : t.matches v = t.matches v' := by
  have hform := (inv.form _ _).mp h
  cases t <;> cases hform <;> rfl

theorem acceptsOverload (o : Overload) (hreceiver : Option.Rel P receiver receiver')
    (hargs : List.Forall₂ P args args') : o.accepts receiver args = o.accepts receiver' args' := by
  have hall : ∀ parameters : List Parameter,
      ((args.zip parameters).all fun given => given.2.type.matches given.1) =
        (args'.zip parameters).all fun given => given.2.type.matches given.1 := by
    induction hargs with
    | nil => intro parameters; rfl
    | cons hv _ ih =>
      intro parameters
      cases parameters with
      | nil => rfl
      | cons p rest => simp only [List.zip_cons_cons, List.all_cons, ih, inv.matchesType p.type hv]
  have hself : o.acceptsReceiver receiver = o.acceptsReceiver receiver' ∧
      receiver.isSome = receiver'.isSome := by
    cases hreceiver with
    | none => exact ⟨rfl, rfl⟩
    | some hv =>
      refine ⟨?_, rfl⟩
      cases htype : o.receiver with
      | none => simp only [Overload.acceptsReceiver, htype]
      | some t => simp only [Overload.acceptsReceiver, htype, inv.matchesType t hv]
  rw [Overload.accepts, Overload.accepts, hself.1, hself.2, hargs.length_eq]
  exact congrArg _ (hall o.parameters)

theorem accepts (s : Signature) (hreceiver : Option.Rel P receiver receiver')
    (hargs : List.Forall₂ P args args') : s.accepts receiver args = s.accepts receiver' args' := by
  have hoverloads : (fun o : Overload => o.accepts receiver args) =
      fun o => o.accepts receiver' args' :=
    funext fun o => inv.acceptsOverload o hreceiver hargs
  rw [Signature.accepts, Signature.accepts, hoverloads]

theorem callTypes (hreceiver : Option.Rel P receiver receiver')
    (hargs : List.Forall₂ P args args') :
    Environment.callTypes receiver args = Environment.callTypes receiver' args' := by
  have hnames {items items' : List Value} (h : List.Forall₂ P items items') :
      items.map Value.typeName = items'.map Value.typeName := by
    induction h with
    | nil => rfl
    | cons hv _ ih => rw [List.map_cons, List.map_cons, inv.typeName hv, ih]
  refine hnames (List.rel_append ?_ hargs)
  cases hreceiver with
  | none => exact .nil
  | some hv => exact .cons hv .nil

/-- A call of a function of the environment preserves what the function does. -/
theorem call {places : Origin → Origin → Prop} {env : Environment} {name : String}
    (h : ∀ f, env.functions.get? name = some f → f.Preserves places P) {a b : Origin}
    (hab : places a b) (hreceiver : Option.Rel P receiver receiver')
    (hargs : List.Forall₂ P args args') :
    Agree P (env.call name a receiver args) (env.call name b receiver' args') := by
  rw [Environment.call, Environment.call, inv.callTypes hreceiver hargs]
  cases hf : env.functions.get? name with
  | none => exact .error _
  | some f =>
    simp only [inv.accepts f.signature hreceiver hargs]
    split
    · exact h f hf a b _ _ _ _ hab hreceiver hargs
    · exact .error _

end Congruence

/-! ## Standard functions -/

namespace Standard

theorem operand_related (hreceiver : Option.Rel P receiver receiver')
    (hargs : List.Forall₂ P args args') :
    P (operand receiver args) (operand receiver' args') := by
  cases hreceiver with
  | some hv => exact hv
  | none =>
    cases hargs with
    | nil => exact inv.null
    | cons hv _ => exact hv

theorem receiverString_related (h : Option.Rel P receiver receiver') :
    receiverString receiver = receiverString receiver' := by
  cases h with
  | none => rfl
  | some hv => cases (inv.form _ _).mp hv <;> rfl

theorem receiverList_related (h : Option.Rel P receiver receiver') :
    Agree (List.Forall₂ P) (receiverList receiver) (receiverList receiver') := by
  cases h with
  | none => exact .error _
  | some hv =>
    cases (inv.form _ _).mp hv with
    | list hitems => exact .ok hitems
    | _ => exact .error _

theorem stringArg_related (h : List.Forall₂ P args args') (position : Nat) :
    stringArg args position = stringArg args' position := by
  have hget := Value.forall₂_getElem? h position
  rw [stringArg, stringArg]
  generalize args[position]? = x, args'[position]? = x' at hget ⊢
  cases hget with
  | none => rfl
  | some hv => cases (inv.form _ _).mp hv <;> rfl

theorem position_related {v v' : Option Value} (h : Option.Rel P v v') :
    position v = position v' := by
  cases h with
  | none => rfl
  | some hv => cases (inv.form _ _).mp hv <;> rfl

/-- What is said of the size of a value that is not counted. -/
theorem sized_related {v v' : Value} (h : P v v') :
    Agree P (match v.face?.filter fun face => face.type.traits.sized with
      | some face => (.ok (.ofNat face.size) : Outcome Value)
      | none => Outcome.raise (.noSuchOverload "size" [v.typeName]))
    (match v'.face?.filter fun face => face.type.traits.sized with
      | some face => .ok (.ofNat face.size)
      | none => Outcome.raise (.noSuchOverload "size" [v'.typeName])) := by
  have hsized := inv.allowing? h Traits.sized
  rw [Value.allowing?, Value.allowing?] at hsized
  rw [inv.typeName h]
  generalize v.face?.filter _ = x, v'.face?.filter _ = x' at hsized ⊢
  cases hsized with
  | none => exact .error _
  | some hface =>
    dsimp only
    rw [hface.1.size fun _ => hface.2]
    exact .ok (inv.number _)

theorem size_preserves : Body.Preserves P size := by
  intro receiver receiver' args args' hreceiver hargs
  have hoperand := operand_related inv hreceiver hargs
  have hsized := sized_related inv hoperand
  rw [size, size]
  generalize operand receiver args = v, operand receiver' args' = v' at hoperand hsized ⊢
  cases (inv.form _ _).mp hoperand with
  | string s => exact .ok (inv.number _)
  | list hitems =>
    dsimp only
    rw [hitems.length_eq]
    exact .ok (inv.number _)
  | map hentries =>
    dsimp only
    rw [hentries.length]
    exact .ok (inv.number _)
  | _ => exact hsized

theorem string_preserves : Body.Preserves P string := by
  intro receiver receiver' args args' hreceiver hargs
  have hoperand := operand_related inv hreceiver hargs
  have hdisplay := inv.display hoperand
  rw [string, string]
  generalize operand receiver args = v, operand receiver' args' = v' at hoperand hdisplay ⊢
  cases (inv.form _ _).mp hoperand with
  | list _ => exact .error _
  | map _ => exact .error _
  | _ =>
    dsimp only
    rw [hdisplay]
    exact .ok (inv.string _)

theorem int_preserves : Body.Preserves P int := by
  intro receiver receiver' args args' hreceiver hargs
  have hoperand := operand_related inv hreceiver hargs
  rw [int, int]
  generalize operand receiver args = v, operand receiver' args' = v' at hoperand ⊢
  cases (inv.form _ _).mp hoperand with
  | number n =>
    dsimp only
    split
    · exact .ok (inv.number _)
    · exact .error _
  | string s =>
    dsimp only
    split
    · exact .ok (inv.number _)
    · exact .error _
  | _ => exact .error _

theorem double_preserves : Body.Preserves P double := by
  intro receiver receiver' args args' hreceiver hargs
  have hoperand := operand_related inv hreceiver hargs
  rw [double, double]
  generalize operand receiver args = v, operand receiver' args' = v' at hoperand ⊢
  cases (inv.form _ _).mp hoperand with
  | number n => exact .ok (inv.number n)
  | string s =>
    dsimp only
    split
    · exact .ok (inv.number _)
    · exact .error _
  | _ => exact .error _

theorem bool_preserves : Body.Preserves P bool := by
  intro receiver receiver' args args' hreceiver hargs
  have hoperand := operand_related inv hreceiver hargs
  rw [bool, bool]
  generalize operand receiver args = v, operand receiver' args' = v' at hoperand ⊢
  cases (inv.form _ _).mp hoperand with
  | bool b => exact .ok (inv.bool b)
  | string s =>
    dsimp only
    split
    · exact .ok (inv.bool _)
    · split
      · exact .ok (inv.bool _)
      · exact .error _
  | _ => exact .error _

theorem type_preserves : Body.Preserves P type := by
  intro receiver receiver' args args' hreceiver hargs
  rw [type, type, inv.typeName (operand_related inv hreceiver hargs)]
  exact .ok (inv.string _)

theorem dyn_preserves : Body.Preserves P dyn := fun _ _ _ _ hreceiver hargs =>
  .ok (operand_related inv hreceiver hargs)

/-- A function that reads a string off its receiver and one off its first argument. -/
theorem twoStrings_preserves {k : String → String → Value} (h : ∀ s t, P (k s t) (k s t)) :
    Body.Preserves P fun receiver args => do
      let s ← receiverString receiver
      return k s (← stringArg args 0) := by
  intro receiver receiver' args args' hreceiver hargs
  simp only [receiverString_related inv hreceiver, stringArg_related inv hargs 0]
  exact .bind_same fun s => .bind_same fun t => .ok (h s t)

theorem split_preserves : Body.Preserves P split := twoStrings_preserves inv fun s t => by
  refine inv.list ?_
  generalize Text.pieces t.toList s.toList = pieces
  induction pieces with
  | nil => exact .nil
  | cons piece _ ih => exact .cons (inv.string _) ih

/-- A function that reads a string off its receiver. -/
theorem oneString_preserves (k : String → String) :
    Body.Preserves P fun receiver _ => do return .string (k (← receiverString receiver)) := by
  intro receiver receiver' _ _ hreceiver _
  simp only [receiverString_related inv hreceiver]
  exact .bind_same fun s => .ok (inv.string _)

theorem stringItem_related {v v' : Value} (h : P v v') : stringItem v = stringItem v' := by
  cases (inv.form _ _).mp h <;> rfl

theorem join_preserves : Body.Preserves P join := by
  intro receiver receiver' args args' hreceiver hargs
  refine (receiverList_related inv hreceiver).bind fun items items' hitems => ?_
  have hstrings := Value.mapM_congr hitems fun _ _ => stringItem_related inv
  have hjoined (separator : String) : Agree P
      (do return .string (separator.intercalate (← items.mapM stringItem)))
      (do return .string (separator.intercalate (← items'.mapM stringItem))) := by
    rw [hstrings]
    exact .bind_same fun parts => .ok (inv.string _)
  have hempty : args.isEmpty = args'.isEmpty := by cases hargs <;> rfl
  dsimp only
  rw [hempty, stringArg_related inv hargs 0]
  split
  · exact hjoined ""
  · exact .bind_same hjoined

theorem slice_preserves : Body.Preserves P slice := by
  intro receiver receiver' args args' hreceiver hargs
  refine (receiverList_related inv hreceiver).bind fun items items' hitems => ?_
  rw [position_related inv (Value.forall₂_getElem? hargs 0),
    position_related inv (Value.forall₂_getElem? hargs 1), hitems.length_eq]
  refine .bind_same fun start => .bind_same fun stop => ?_
  split
  · exact .ok (inv.list (List.forall₂_drop start (List.forall₂_take stop hitems)))
  · exact .error _

theorem flattenItems_related (depth : Nat) {items items' : List Value}
    (h : List.Forall₂ P items items') :
    List.Forall₂ P (flattenItems depth items) (flattenItems depth items') := by
  induction depth generalizing items items' with
  | zero => exact h
  | succ depth ih =>
    rw [flattenItems, flattenItems]
    refine List.rel_flatMap h fun v v' hv => ?_
    have hone : List.Forall₂ P [v] [v'] := .cons hv .nil
    cases (inv.form _ _).mp hv with
    | list hitems => exact ih hitems
    | _ => exact hone

theorem flatten_preserves : Body.Preserves P flatten := by
  intro receiver receiver' args args' hreceiver hargs
  refine (receiverList_related inv hreceiver).bind fun items items' hitems => ?_
  have hflat (depth : Nat) : Agree P
      (Except.ok (.list (flattenItems depth items)) : Outcome Value)
      (.ok (.list (flattenItems depth items'))) :=
    .ok (inv.list (flattenItems_related inv depth hitems))
  have hdepth := Value.forall₂_getElem? hargs 0
  dsimp only
  generalize args[0]? = x, args'[0]? = x' at hdepth ⊢
  cases hdepth with
  | none => exact hflat 1
  | some hv =>
    dsimp only
    rw [position_related inv (.some hv)]
    exact .bind_same hflat

/-- **No standard function tells related values from each other.** -/
theorem functions_preserve (places : Origin → Origin → Prop) :
    ∀ f ∈ functions, f.Preserves places P := by
  have hbody {body : Body} (h : Body.Preserves P body) (signature : Signature) :
      Function.Preserves places P ⟨signature, fun _ => body⟩ := fun _ _ _ _ _ _ _ => h _ _ _ _
  simp only [functions, List.forall_mem_cons]
  exact ⟨hbody (size_preserves inv) _, hbody (string_preserves inv) _, hbody (int_preserves inv) _,
    hbody (double_preserves inv) _, hbody (bool_preserves inv) _, hbody (type_preserves inv) _,
    hbody (dyn_preserves inv) _, hbody (twoStrings_preserves inv fun _ _ => inv.bool _) _,
    hbody (twoStrings_preserves inv fun _ _ => inv.bool _) _,
    hbody (twoStrings_preserves inv fun _ _ => inv.bool _) _, hbody (split_preserves inv) _,
    hbody (oneString_preserves inv _) _, hbody (oneString_preserves inv _) _,
    hbody (oneString_preserves inv _) _, hbody (join_preserves inv) _,
    hbody (slice_preserves inv) _, hbody (flatten_preserves inv) _, List.forall_mem_nil _⟩

end Standard

end Calls

/-! ## Evaluation -/

/-- A relation between values and one between the places of two runs. -/
structure Simulation (R : Origin → Origin → Prop) (loose : Origin → Prop)
    (P : Value → Value → Prop) (places : Origin → Origin → Prop) : Prop
    extends Congruence R loose P where
  faithful : Value.Faithful R
  child : ∀ {a b}, places a b → ∀ part, places (a.child part) (b.child part)

/-- Two contexts with related values under the given names, where the functions of the given names
preserve what is related. -/
structure Parallel (P : Value → Value → Prop) (places : Origin → Origin → Prop) (env : Environment)
    (context context' : Context) (calls free : List String) : Prop where
  call : ∀ name ∈ calls, ∀ f, env.functions.get? name = some f → f.Preserves places P
  name : ∀ x ∈ free, Option.Rel P (context x) (context' x)

section Evaluation

variable {R : Origin → Origin → Prop} {loose : Origin → Prop} {P : Value → Value → Prop}
  {places : Origin → Origin → Prop} {env : Environment} {context context' : Context}

theorem Parallel.mono {calls calls' free free' : List String}
    (h : Parallel P places env context context' calls free) (hcalls : calls' ⊆ calls)
    (hfree : free' ⊆ free) : Parallel P places env context context' calls' free' :=
  ⟨fun name hmem => h.call name (hcalls hmem), fun x hmem => h.name x (hfree hmem)⟩

theorem Parallel.bind {calls free : List String} {name : String}
    (h : Parallel P places env context context' calls (free.filter (· ≠ name))) {v v' : Value}
    (hv : P v v') :
    Parallel P places env (context.bind name v) (context'.bind name v') calls free := by
  refine ⟨h.call, fun x hmem => ?_⟩
  by_cases hx : x = name
  · simpa only [Context.bind, if_pos hx] using .some hv
  · simpa only [Context.bind, if_neg hx] using h.name x (by simp [hmem, hx])

namespace Simulation

open JsonTemplate.Expr

mutual

/-- **Two runs on related values agree**: they give related values, or are interrupted by the
same. -/
theorem eval (inv : Simulation R loose P places) : ∀ (e : Expr) {a b : Origin}
    {context context' : Context}, places a b →
    Parallel P places env context context' e.calls e.free →
    Agree P (e.eval env a context) (e.eval env b context')
  | literal _ l, _, _, _, _, _, _ => .ok (inv.ofLiteral l)
  | list span items, _, _, _, _, hab, h => by
    rw [Expr.eval, Expr.eval]
    exact ((evalItems inv items (fun part => inv.child hab (0 + part)) h).bind fun _ _ hout =>
      .ok (inv.list hout)).located span
  | dict span entries, _, _, _, _, hab, h => by
    rw [Expr.eval, Expr.eval]
    exact ((evalEntries inv entries 0 hab h).bind fun _ _ hout =>
      .ok (inv.map hout.ofPairs)).located span
  | ident span name, _, _, context, context', _, h => by
    have hname := h.name name (by simp [free])
    rw [Expr.eval, Expr.eval, Context.resolve, Context.resolve]
    generalize context name = x, context' name = x' at hname ⊢
    cases hname with
    | none => exact .error _
    | some hv => exact .ok hv
  | select span operand field, _, _, _, _, hab, h => by
    rw [Expr.eval, Expr.eval]
    exact ((eval inv operand (inv.child hab 0) h).bind fun _ _ hv =>
      (inv.select hv field).ofResult).located span
  | index span operand i, _, _, _, _, hab, h => by
    have hoperand := eval inv operand (inv.child hab 0)
      (h.mono (by simp [calls]) (by simp [free]))
    have hindex := eval inv i (inv.child hab 1) (h.mono (by simp [calls]) (by simp [free]))
    rw [Expr.eval, Expr.eval]
    exact (hoperand.bind fun _ _ hv => hindex.bind fun _ _ hi =>
      (inv.index hv hi).ofResult).located span
  | call span target function args, _, _, _, _, hab, h => by
    have htarget := evalOptional inv target (inv.child hab 0)
      (h.mono (by simp [calls]) (by simp [free]))
    have hargs := evalItems inv args (fun part => inv.child hab (2 + part))
      (h.mono (by simp [calls]) (by simp [free]))
    rw [Expr.eval, Expr.eval]
    exact (htarget.bind fun _ _ hreceiver => hargs.bind fun _ _ hvalues =>
      inv.toCongruence.call (h.call function (by simp [calls])) (inv.child hab 1) hreceiver
        hvalues).located span
  | has span operand field, _, _, _, _, hab, h => by
    rw [Expr.eval, Expr.eval]
    refine ((eval inv operand (inv.child hab 0) h).bind fun _ _ hv => ?_).located span
    rw [inv.hasField hv field]
    exact .bind_same fun _ => .ok (inv.bool _)
  | quantify span q range name test, _, _, _, _, hab, h => by
    have hrange := eval inv range (inv.child hab 0) (h.mono (by simp [calls]) (by simp [free]))
    rw [Expr.eval, Expr.eval]
    refine (hrange.bind fun _ _ hv => (inv.range _ hv).bind fun _ _ hitems =>
      inv.run q (fun number _ _ hitem => ?_) hitems).located span
    exact inv.condition (eval inv test (inv.child hab _)
      ((h.mono (by simp [calls]) (by simp [free])).bind hitem)) _
  | collect span range name test image, _, _, _, _, hab, h => by
    have hrange := eval inv range (inv.child hab 0) (h.mono (by simp [calls]) (by simp [free]))
    rw [Expr.eval, Expr.eval]
    refine (hrange.bind fun _ _ hv => (inv.range _ hv).bind fun _ _ hitems =>
      (Loop.collect_related (fun number _ _ hitem => ?_) (fun number _ _ hitem => ?_)
        hitems 0).bind fun _ _ hout => .ok (inv.list hout)).located span
    · exact evalTest inv test (inv.child hab _)
        ((h.mono (by simp [calls]) (by simp [free])).bind hitem)
    · exact eval inv image (inv.child hab _)
        ((h.mono (by simp [calls]) (by simp [free])).bind hitem)
  | conditional span condition yes no, _, _, _, _, hab, h => by
    have hcondition := eval inv condition (inv.child hab 0)
      (h.mono (by simp [calls]) (by simp [free]))
    rw [Expr.eval, Expr.eval, inv.condition hcondition]
    refine (Agree.bind_same fun b => ?_).located span
    cases b with
    | true => exact eval inv yes (inv.child hab 1) (h.mono (by simp [calls]) (by simp [free]))
    | false => exact eval inv no (inv.child hab 2) (h.mono (by simp [calls]) (by simp [free]))
  | binary span op left right, _, _, _, _, hab, h => by
    rw [Expr.eval, Expr.eval]
    exact (inv.outcome op inv.faithful _ _
      (eval inv left (inv.child hab 0) (h.mono (by simp [calls]) (by simp [free])))
      (eval inv right (inv.child hab 1) (h.mono (by simp [calls]) (by simp [free])))).located span
  | unary span op operand, _, _, _, _, hab, h => by
    rw [Expr.eval, Expr.eval]
    exact ((eval inv operand (inv.child hab 0) h).bind fun _ _ hv => inv.unary op hv).located span

theorem evalOptional (inv : Simulation R loose P places) : ∀ (e : Option Expr) {a b : Origin}
    {context context' : Context}, places a b →
    Parallel P places env context context' (callsOfOptional e) (freeOptional e) →
    Agree (Option.Rel P) (Expr.evalOptional env e a context) (Expr.evalOptional env e b context')
  | none, _, _, _, _, _, _ => .ok .none
  | some e, _, _, _, _, hab, h => (eval inv e hab h).bind fun _ _ hv => .ok (.some hv)

theorem evalTest (inv : Simulation R loose P places) : ∀ (e : Option Expr) {a b : Origin}
    {context context' : Context}, places a b →
    Parallel P places env context context' (callsOfOptional e) (freeOptional e) →
    Expr.evalTest env e a context = Expr.evalTest env e b context'
  | none, _, _, _, _, _, _ => rfl
  | some e, _, _, _, _, hab, h => inv.condition (eval inv e hab h) e.span

/-- The places of the parts need not be numbered alike. -/
theorem evalItems (inv : Simulation R loose P places) : ∀ (items : List Expr) {a b : Origin}
    {context context' : Context} {part part' : Nat},
    (∀ n, places (a.child (part + n)) (b.child (part' + n))) →
    Parallel P places env context context' (callsOfItems items) (freeItems items) →
    Agree (List.Forall₂ P) (Expr.evalItems env items a part context)
      (Expr.evalItems env items b part' context')
  | [], _, _, _, _, _, _, _, _ => .ok .nil
  | e :: rest, a, b, _, _, part, part', hab, h => by
    have hfirst := eval inv e (hab 0) (h.mono (by simp [callsOfItems]) (by simp [freeItems]))
    have hplaces (n : Nat) : places (a.child (part + 1 + n)) (b.child (part' + 1 + n)) := by
      rw [Nat.add_assoc, Nat.add_assoc]
      exact hab (1 + n)
    have hrest := evalItems inv rest hplaces
      (h.mono (by simp [callsOfItems]) (by simp [freeItems]))
    rw [Expr.evalItems, Expr.evalItems]
    exact hfirst.bind fun _ _ hv => hrest.bind fun _ _ hout => .ok (.cons hv hout)

theorem evalEntries (inv : Simulation R loose P places) : ∀ (entries : List (Expr × Expr))
    {a b : Origin} {context context' : Context} (part : Nat), places a b →
    Parallel P places env context context' (callsOfEntries entries) (freeEntries entries) →
    Agree (Entries.Related P) (Expr.evalEntries env entries a part context)
      (Expr.evalEntries env entries b part context')
  | [], _, _, _, _, _, _, _ => .ok .nil
  | (key, e) :: rest, _, _, _, _, part, hab, h => by
    have hkey := eval inv key (inv.child hab part)
      (h.mono (by simp [callsOfEntries]) (by simp [freeEntries]))
    have hvalue := eval inv e (inv.child hab (part + 1))
      (h.mono (by simp [callsOfEntries]) (by simp [freeEntries]))
    have hrest := evalEntries inv rest (part + 2) hab
      (h.mono (by simp [callsOfEntries]) (by simp [freeEntries]))
    rw [Expr.evalEntries, Expr.evalEntries]
    refine hkey.bind fun _ _ hk => ?_
    rw [inv.mapKey hk]
    exact .bind_same fun k => hvalue.bind fun _ _ hv => hrest.bind fun _ _ hout =>
      .ok (.cons k hv hout)

end

end Simulation

end Evaluation

end JsonTemplate
