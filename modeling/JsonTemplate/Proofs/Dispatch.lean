/-
Calls before and while they are evaluated. The check of a call knows the literals among its
operands, the dispatcher all their values. What the dispatcher accepts the check lets pass
(`Signature.mayAccept_of_accepts`), and where every operand is a literal both decide alike
(`Signature.mayAccept_eq_accepts`), so the two overload tests never drift apart.
-/
import Mathlib.Data.List.Forall2
import JsonTemplate.Program
import JsonTemplate.Proofs.Outcome

namespace JsonTemplate

namespace Expr

/-! ## Values of operands -/

/-- A value that agrees with what is known of an operand: a literal has its own value only. -/
def MayBe (e : Expr) (v : Value) : Prop := ∀ l, e.literal? = some l → v = .ofLiteral l

/-- Values that a call may be given. -/
structure CallValues (target : Option Expr) (args : List Expr) (receiver : Option Value)
    (values : List Value) : Prop where
  receiver : Option.Rel MayBe target receiver
  args : List.Forall₂ MayBe args values

theorem eval_of_literal? {e : Expr} {l : Literal} (h : e.literal? = some l) (env : Environment)
    (origin : Origin) (context : Context) : e.eval env origin context = .ok (.ofLiteral l) := by
  cases e <;> cases h
  rfl

section Eval

variable {env : Environment} {context : Context}

/-- An operand evaluates to a value that agrees with it. -/
theorem mayBe_of_eval {e : Expr} {origin : Origin} {v : Value}
    (h : e.eval env origin context = .ok v) : e.MayBe v := by
  intro l hl
  rw [eval_of_literal? hl] at h
  cases h
  rfl

theorem mayBe_of_evalOptional {target : Option Expr} {origin : Origin} {receiver : Option Value}
    (h : evalOptional env target origin context = .ok receiver) :
    Option.Rel MayBe target receiver := by
  cases target with
  | none => cases h; exact .none
  | some e =>
    simp only [evalOptional, bind_eq_ok] at h
    obtain ⟨v, hv, h⟩ := h
    cases h
    exact .some (mayBe_of_eval hv)

theorem mayBe_of_evalItems : ∀ {args : List Expr} {origin : Origin} {part : Nat}
    {values : List Value}, evalItems env args origin part context = .ok values →
      List.Forall₂ MayBe args values
  | [], _, _, _, h => by cases h; exact .nil
  | _ :: _, _, _, _, h => by
    simp only [evalItems, bind_eq_ok] at h
    obtain ⟨v, hv, rest, hrest, h⟩ := h
    cases h
    exact .cons (mayBe_of_eval hv) (mayBe_of_evalItems hrest)

theorem evalOptional_of_literal {target : Option Expr} (h : ∀ e ∈ target, e.literal?.isSome) :
    ∃ receiver, ∀ (env : Environment) (origin : Origin) (context : Context),
      evalOptional env target origin context = .ok receiver := by
  cases target with
  | none => exact ⟨none, fun _ _ _ => rfl⟩
  | some e =>
    obtain ⟨l, hl⟩ := Option.isSome_iff_exists.mp (h e rfl)
    refine ⟨some (.ofLiteral l), fun env origin context => ?_⟩
    rw [evalOptional, eval_of_literal? hl]
    rfl

theorem evalItems_of_literal : ∀ {args : List Expr}, (∀ e ∈ args, e.literal?.isSome) →
    ∃ values, ∀ (env : Environment) (origin : Origin) (part : Nat) (context : Context),
      evalItems env args origin part context = .ok values
  | [], _ => ⟨[], fun _ _ _ _ => rfl⟩
  | e :: rest, h => by
    rw [List.forall_mem_cons] at h
    obtain ⟨l, hl⟩ := Option.isSome_iff_exists.mp h.1
    obtain ⟨values, hvalues⟩ := evalItems_of_literal h.2
    refine ⟨.ofLiteral l :: values, fun env origin part context => ?_⟩
    rw [evalItems, eval_of_literal? hl, hvalues]
    rfl

end Eval

end Expr

/-! ## The two tests -/

open JsonTemplate.Expr (MayBe CallValues)

section Tests

variable {target : Option Expr} {args : List Expr} {receiver : Option Value} {values : List Value}

theorem ValueType.mayMatch_of_matches (type : ValueType) {e : Expr} {v : Value} (h : e.MayBe v)
    (hmatches : type.matches v) : type.mayMatch e.literal? := by
  cases hl : e.literal? with
  | none => rfl
  | some l =>
    rw [h l hl] at hmatches
    exact hmatches

theorem ValueType.mayMatch_eq_matches (type : ValueType) {e : Expr} {v : Value} (h : e.MayBe v)
    (hliteral : e.literal?.isSome) : type.mayMatch e.literal? = type.matches v := by
  obtain ⟨l, hl⟩ := Option.isSome_iff_exists.mp hliteral
  rw [hl, h l hl]
  rfl

namespace Overload

theorem takes_same (o : Overload) (h : CallValues target args receiver values) :
    o.takes (target.map Expr.literal?).isSome (args.map Expr.literal?).length =
      o.takes receiver.isSome values.length := by
  have hreceiver : (target.map Expr.literal?).isSome = receiver.isSome := by
    cases h.receiver <;> rfl
  rw [hreceiver, List.length_map, h.args.length_eq]

theorem mayAcceptTarget_of_accepts (o : Overload) (h : Option.Rel MayBe target receiver)
    (haccepts : o.acceptsReceiver receiver) :
    o.mayAcceptTarget (target.map Expr.literal?) := by
  cases h with
  | none => rfl
  | some hmay =>
    simp only [Option.map_some, mayAcceptTarget, acceptsReceiver] at haccepts ⊢
    cases htype : o.receiver with
    | none => rfl
    | some type =>
      rw [htype] at haccepts
      exact type.mayMatch_of_matches hmay haccepts

theorem mayAcceptTarget_eq_accepts (o : Overload) (h : Option.Rel MayBe target receiver)
    (hliteral : ∀ e ∈ target, e.literal?.isSome) :
    o.mayAcceptTarget (target.map Expr.literal?) = o.acceptsReceiver receiver := by
  cases h with
  | none => rfl
  | some hmay =>
    simp only [Option.map_some, mayAcceptTarget, acceptsReceiver]
    cases o.receiver with
    | none => rfl
    | some type => exact type.mayMatch_eq_matches hmay (hliteral _ rfl)

theorem mayMatchAll_of_matches (h : List.Forall₂ MayBe args values) :
    ∀ {parameters : List Parameter},
      ((values.zip parameters).all fun (v, p) => p.type.matches v) →
      (((args.map Expr.literal?).zip parameters).all fun (known, p) => p.type.mayMatch known) := by
  induction h with
  | nil => exact fun _ => rfl
  | cons hmay _ ih =>
    intro parameters hall
    cases parameters with
    | nil => rfl
    | cons p rest =>
      simp only [List.map_cons, List.zip_cons_cons, List.all_cons, Bool.and_eq_true] at hall ⊢
      exact ⟨ValueType.mayMatch_of_matches _ hmay hall.1, ih hall.2⟩

theorem mayMatchAll_eq_matches (h : List.Forall₂ MayBe args values)
    (hliteral : ∀ e ∈ args, e.literal?.isSome) : ∀ parameters : List Parameter,
      (((args.map Expr.literal?).zip parameters).all fun (known, p) => p.type.mayMatch known) =
        ((values.zip parameters).all fun (v, p) => p.type.matches v) := by
  induction h with
  | nil => exact fun _ => rfl
  | cons hmay _ ih =>
    intro parameters
    rw [List.forall_mem_cons] at hliteral
    cases parameters with
    | nil => rfl
    | cons p rest =>
      simp only [List.map_cons, List.zip_cons_cons, List.all_cons]
      rw [ValueType.mayMatch_eq_matches _ hmay hliteral.1, ih hliteral.2]

theorem mayAccept_of_accepts (o : Overload) (h : CallValues target args receiver values)
    (haccepts : o.accepts receiver values) :
    o.mayAccept (target.map Expr.literal?) (args.map Expr.literal?) := by
  simp only [accepts, mayAccept, Bool.and_eq_true, takes_same o h] at haccepts ⊢
  exact ⟨⟨haccepts.1.1, mayAcceptTarget_of_accepts o h.receiver haccepts.1.2⟩,
    mayMatchAll_of_matches h.args haccepts.2⟩

theorem mayAccept_eq_accepts (o : Overload) (h : CallValues target args receiver values)
    (htarget : ∀ e ∈ target, e.literal?.isSome) (hargs : ∀ e ∈ args, e.literal?.isSome) :
    o.mayAccept (target.map Expr.literal?) (args.map Expr.literal?) =
      o.accepts receiver values := by
  rw [accepts, mayAccept, takes_same o h, mayAcceptTarget_eq_accepts o h.receiver htarget,
    mayMatchAll_eq_matches h.args hargs]

end Overload

namespace Signature

/-- A call that is accepted has passed the check, whatever its other operands might have been. -/
theorem mayAccept_of_accepts (s : Signature) (h : CallValues target args receiver values)
    (haccepts : s.accepts receiver values) :
    s.mayAccept (target.map Expr.literal?) (args.map Expr.literal?) := by
  simp only [accepts, mayAccept, Bool.or_eq_true, List.any_eq_true] at haccepts ⊢
  refine haccepts.imp_right ?_
  rintro ⟨o, hmem, ho⟩
  exact ⟨o, hmem, o.mayAccept_of_accepts h ho⟩

/-- On literals the check decides as the dispatcher does. -/
theorem mayAccept_eq_accepts (s : Signature) (h : CallValues target args receiver values)
    (htarget : ∀ e ∈ target, e.literal?.isSome) (hargs : ∀ e ∈ args, e.literal?.isSome) :
    s.mayAccept (target.map Expr.literal?) (args.map Expr.literal?) =
      s.accepts receiver values := by
  have hsame (o : Overload) : o.mayAccept (target.map Expr.literal?) (args.map Expr.literal?) =
      o.accepts receiver values := o.mayAccept_eq_accepts h htarget hargs
  simp only [accepts, mayAccept, hsame]

end Signature

end Tests

/-! ## Checking and calling -/

/-- A call that no overload takes is a call of a function whose signature refuses it. -/
theorem Expr.mem_callFaults {env : Environment} {span : Span} {target : Option Expr}
    {function : String} {args : List Expr} {shape : String} {types : List String}
    (h : ⟨span, .noOverload shape types⟩ ∈ callFaults env span target function args) :
    ∃ f, env.functions.get? function = some f ∧
      f.signature.mayAccept (target.map literal?) (args.map literal?) = false := by
  unfold callFaults at h
  split at h
  · simp at h
  · rename_i f hget
    dsimp only at h
    split at h
    · cases h
    · rename_i hrefused
      exact ⟨f, hget, Bool.not_eq_true _ ▸ hrefused⟩

theorem Expr.callFaults_eq_nil {env : Environment} {span : Span} {target : Option Expr}
    {function : String} {args : List Expr} (h : callFaults env span target function args = []) :
    ∃ f, env.functions.get? function = some f ∧
      f.signature.mayAccept (target.map literal?) (args.map literal?) = true := by
  unfold callFaults at h
  split at h
  · cases h
  · rename_i f hget
    dsimp only at h
    split at h
    · rename_i haccepted
      exact ⟨f, hget, haccepted⟩
    · cases h

theorem Environment.call_of_refused {env : Environment} {function : String} {f : Function}
    (hget : env.functions.get? function = some f) {receiver : Option Value} {values : List Value}
    (h : f.signature.accepts receiver values = false) (origin : Origin) :
    env.call function origin receiver values =
      .raise (.noSuchOverload function (callTypes receiver values)) := by
  simp [call, hget, h]

theorem Environment.call_of_accepted {env : Environment} {function : String} {f : Function}
    (hget : env.functions.get? function = some f) {receiver : Option Value} {values : List Value}
    (h : f.signature.accepts receiver values = true) (origin : Origin) :
    env.call function origin receiver values = f.call origin receiver values := by
  simp [call, hget, h]

/-- Evaluating a call is evaluating its operands and dispatching values that agree with them. -/
theorem Expr.eval_call_congr {env : Environment} {span : Span} {target : Option Expr}
    {function : String} {args : List Expr} {origin : Origin} {context : Context}
    {k : Option Value → List Value → Outcome Value}
    (h : ∀ receiver values, CallValues target args receiver values →
      env.call function (origin.child 1) receiver values = k receiver values) :
    (call span target function args).eval env origin context = .located span (do
      let receiver ← evalOptional env target (origin.child 0) context
      k receiver (← evalItems env args origin 2 context)) := by
  rw [eval]
  cases htarget : evalOptional env target (origin.child 0) context with
  | error i => rfl
  | ok receiver =>
    cases hargs : evalItems env args origin 2 context with
    | error i => rfl
    | ok values =>
      simp only [ok_bind]
      rw [h receiver values ⟨mayBe_of_evalOptional htarget, mayBe_of_evalItems hargs⟩]

/-- **The check of a call agrees with its dispatch.** If it finds no overload, then no values that
agree with the literals of the call are accepted: the function is never run, and a call whose
operands have values fails for want of an overload. If it passes and every operand is a literal,
then their values are accepted and the function is run on them. -/
theorem call_check_agrees_with_dispatch (env : Environment) (span : Span) (target : Option Expr)
    (function : String) (args : List Expr) :
    (∀ shape types,
      ⟨span, .noOverload shape types⟩ ∈ Expr.callFaults env span target function args →
      ∃ f, env.functions.get? function = some f ∧
        (∀ receiver values, CallValues target args receiver values →
          f.signature.accepts receiver values = false ∧
          ∀ origin, env.call function origin receiver values =
            .raise (.noSuchOverload function (Environment.callTypes receiver values))) ∧
        ∀ origin context, (Expr.call span target function args).eval env origin context =
          .located span (do
            let receiver ← Expr.evalOptional env target (origin.child 0) context
            let values ← Expr.evalItems env args origin 2 context
            .raise (.noSuchOverload function (Environment.callTypes receiver values)))) ∧
    ((∀ e ∈ target, e.literal?.isSome) → (∀ e ∈ args, e.literal?.isSome) → ∀ bound,
      (Expr.call span target function args).faults env bound = [] →
      ∃ f receiver values, env.functions.get? function = some f ∧
        CallValues target args receiver values ∧ f.signature.accepts receiver values = true ∧
        ∀ origin context, (Expr.call span target function args).eval env origin context =
          .located span (f.call (origin.child 1) receiver values)) := by
  constructor
  · intro shape types hfault
    obtain ⟨f, hget, hrefused⟩ := Expr.mem_callFaults hfault
    have hnever (receiver : Option Value) (values : List Value)
        (h : CallValues target args receiver values) :
        f.signature.accepts receiver values = false := by
      by_contra haccepts
      have hmay := f.signature.mayAccept_of_accepts h (Bool.not_eq_false _ ▸ haccepts)
      rw [hrefused] at hmay
      cases hmay
    exact ⟨f, hget,
      fun receiver values h => ⟨hnever receiver values h,
        Environment.call_of_refused hget (hnever receiver values h)⟩,
      fun origin context => Expr.eval_call_congr fun receiver values h =>
        Environment.call_of_refused hget (hnever receiver values h) _⟩
  · intro htarget hargs bound hfaults
    simp only [Expr.faults, List.append_eq_nil_iff] at hfaults
    obtain ⟨f, hget, hpassed⟩ := Expr.callFaults_eq_nil hfaults.2
    obtain ⟨receiver, hreceiver⟩ := Expr.evalOptional_of_literal htarget
    obtain ⟨values, hvalues⟩ := Expr.evalItems_of_literal hargs
    -- Literals have their values in every environment; any will do to see that they agree.
    have hagree : CallValues target args receiver values :=
      ⟨Expr.mayBe_of_evalOptional (hreceiver env default fun _ => none),
        Expr.mayBe_of_evalItems (hvalues env default 0 fun _ => none)⟩
    have haccepts : f.signature.accepts receiver values = true := by
      rw [← f.signature.mayAccept_eq_accepts hagree htarget hargs, hpassed]
    refine ⟨f, receiver, values, hget, hagree, haccepts, fun origin context => ?_⟩
    rw [Expr.eval, hreceiver, hvalues]
    simp only [ok_bind, Environment.call_of_accepted hget haccepts]

/-- A function with a global overload, its second parameter optional, and one on lists:
`[].pick('a')` fits neither, whatever list the receiver is, and `pick('a', 2)` is run. -/
theorem call_check_agrees_with_dispatch_of_pick :
    let pick : Function := ⟨⟨"pick", [⟨none, [⟨"text", .string, true⟩, ⟨"count", .number, false⟩]⟩,
      ⟨some .list, [⟨"position", .number, true⟩]⟩]⟩, fun _ _ args => .ok (.list args)⟩
    let env := Environment.empty.register pick
    (∀ origin items, env.call "pick" origin (some (.list items)) [.string "a"] =
      .raise (.noSuchOverload "pick" ["list", "string"])) ∧
    (Expr.call default none "pick" [.literal default (.string "a"),
        .literal default (.number (.ofNat 2))]).eval env default (fun _ => none) =
      .ok (.list [.string "a", .number (.ofNat 2)]) := by
  intro pick env
  constructor
  · intro origin items
    obtain ⟨f, -, hrefused, -⟩ := (call_check_agrees_with_dispatch env default
      (some (.list default [])) "pick" [.literal default (.string "a")]).1 "dyn.pick" ["string"]
      List.mem_cons_self
    refine (hrefused _ _ ⟨.some fun l hl => ?_, .cons (fun l hl => ?_) .nil⟩).2 origin
    · cases hl
    · cases hl
      rfl
  · obtain ⟨f, receiver, values, hget, ⟨hreceiver, hvalues⟩, -, heval⟩ :=
      (call_check_agrees_with_dispatch env default none "pick"
        [.literal default (.string "a"), .literal default (.number (.ofNat 2))]).2
        nofun (by simp [Expr.literal?]) [] rfl
    cases hget
    cases hreceiver
    obtain _ | ⟨htext, _ | ⟨hcount, ⟨⟩⟩⟩ := hvalues
    rw [heval, htext _ rfl, hcount _ rfl]
    rfl

end JsonTemplate
