/-
What resolving the names of types does to the meaning of an expression: nothing. The resolved
expression is evaluated to what the expression as it was read is in a context where these names
stand for themselves (`eval_resolveTypes`). One induction over the expression carries the names
that the loops around it bind; a loop takes its name from the types (`namingTypes_bind`).
-/
import JsonTemplate.Proofs.Occurrences
import JsonTemplate.Proofs.Options

namespace JsonTemplate

namespace Environment

/-- An environment that is built up by its operations. -/
inductive Made : Environment → Prop
  | empty : Made empty
  | declare {env : Environment} (h : Made env) (name : String) (type : ValueType) :
    Made (env.declare name type)
  | register {env : Environment} (h : Made env) (f : Function) : Made (env.register f)
  | registerType {env : Environment} (h : Made env) (type : ObjectType) :
    Made (env.registerType type)
  | rejectUndeclared {env : Environment} (h : Made env) (reject : Bool) :
    Made { env with rejectUndeclared := reject }

/-- Types are found by their names. -/
theorem Made.type_name {env : Environment} (h : env.Made) {name : String} {type : ObjectType}
    (htype : env.types.get? name = some type) : type.name = name := by
  induction h with
  | empty => cases htype
  | declare _ _ _ ih | register _ _ ih | rejectUndeclared _ _ ih => exact ih htype
  | registerType _ added ih =>
    by_cases hname : name = added.name
    · subst hname
      rw [Environment.registerType, Entries.get?_insert_self] at htype
      cases htype
      rfl
    · rw [Environment.registerType, Entries.get?_insert_of_ne _ _ hname] at htype
      exact ih htype

theorem Made.registerAll {env : Environment} (h : env.Made) (fs : List Function) :
    (env.registerAll fs).Made := by
  induction fs generalizing env with
  | nil => exact h
  | cons f rest ih => exact ih (h.register f)

theorem Made.declareAll {env : Environment} (h : env.Made) (names : List String) :
    (names.foldl (fun env name => env.declare name .any) env).Made := by
  induction names generalizing env with
  | nil => exact h
  | cons name rest ih => exact ih (h.declare name .any)

/-- The context in which the names of types stand for types, but for those that loops bind. -/
def namingTypes (env : Environment) (bound : List String) (context : Context) : Context := fun x =>
  if env.IsTypeName bound x then (env.types.get? x).map fun type => .string type.name
  else context x

theorem Made.namingTypes_eq {env : Environment} (h : env.Made) (bound : List String)
    (context : Context) : env.namingTypes bound context =
      fun x => if env.IsTypeName bound x then some (.string x) else context x := by
  funext x
  by_cases htype : env.IsTypeName bound x
  · obtain ⟨type, hget⟩ := Option.isSome_iff_exists.mp ((Entries.mem_keys_iff _ _).mp htype.2.2)
    rw [Environment.namingTypes, if_pos htype, if_pos htype, hget, Option.map_some,
      h.type_name hget]
  · rw [Environment.namingTypes, if_neg htype, if_neg htype]

theorem namingTypes_bind (env : Environment) (bound : List String) (context : Context)
    (name : String) (value : Value) :
    env.namingTypes (name :: bound) (context.bind name value) =
      (env.namingTypes bound context).bind name value := by
  funext x
  by_cases hx : x = name
  · simp [namingTypes, IsTypeName, Context.bind, hx]
  · have hsame : env.IsTypeName (name :: bound) x ↔ env.IsTypeName bound x := by
      simp [IsTypeName, hx]
    simp only [namingTypes, hsame, Context.bind, if_neg hx]

end Environment

/-- The environments of a template are built up by these operations. -/
theorem TemplateOptions.environment_made (o : TemplateOptions) (fragments : Fragments) :
    o.fragmentEnvironment.Made ∧ (o.environment fragments).Made := by
  have hbase : Environment.standard.Made := Environment.Made.empty.registerAll _
  have hown := ((hbase.declare "ref" .any).register removeProperty).registerType .record
  have hshared : o.sharedEnvironment.Made :=
    ((hown.rejectUndeclared o.strictErrors).declareAll o.constants.keys).registerAll o.functions
  exact ⟨hshared.declare _ _, (hshared.declare _ _).register _⟩

namespace Expr

theorem span_resolveTypes (env : Environment) (bound : List String) (e : Expr) :
    (resolveTypes env bound e).span = e.span := by
  cases e with
  | ident span x =>
    rw [resolveTypes]
    by_cases h : env.IsTypeName bound x
    · obtain ⟨type, -, hresolve⟩ := resolveName_of_type h span
      rw [hresolve]
      rfl
    · rw [resolveName_of_not_type h]
  | _ => rfl

section Eval

variable {env : Environment}

mutual

/-- A resolved expression gives in a context what the expression gives where the names of types
stand for themselves. -/
theorem eval_resolveTypes : ∀ (e : Expr) (bound : List String) (origin : Origin)
    (context : Context), (resolveTypes env bound e).eval env origin context =
      e.eval env origin (env.namingTypes bound context)
  | literal _ _, _, _, _ => rfl
  | list _ items, bound, origin, context => by
    rw [resolveTypes, eval, eval, evalItems_resolveItems items]
  | dict _ entries, bound, origin, context => by
    rw [resolveTypes, eval, eval, evalEntries_resolveEntries entries]
  | ident span x, bound, origin, context => by
    rw [resolveTypes, eval, Context.resolve, Environment.namingTypes]
    by_cases h : env.IsTypeName bound x
    · obtain ⟨type, htype, hresolve⟩ := resolveName_of_type h span
      rw [hresolve, if_pos h, htype]
      rfl
    · rw [resolveName_of_not_type h, if_neg h]
      rfl
  | select _ operand _, bound, origin, context => by
    rw [resolveTypes, eval, eval, eval_resolveTypes operand]
  | index _ operand i, bound, origin, context => by
    rw [resolveTypes, eval, eval, eval_resolveTypes operand, eval_resolveTypes i]
  | call _ target function args, bound, origin, context => by
    rw [resolveTypes, eval, eval, evalOptional_resolveOptional target, evalItems_resolveItems args]
  | has _ operand _, bound, origin, context => by
    rw [resolveTypes, eval, eval, eval_resolveTypes operand]
  | quantify span q range name test, bound, origin, context => by
    have htest : ∀ number item, (resolveTypes env (name :: bound) test).eval env
        (origin.child (number + 1)) (context.bind name item) =
          test.eval env (origin.child (number + 1))
            ((env.namingTypes bound context).bind name item) := by
      -- The name of the loop is no name of a type in the test, whatever it is outside.
      intro number item
      rw [eval_resolveTypes test, Environment.namingTypes_bind]
    rw [resolveTypes, eval, eval, eval_resolveTypes range, span_resolveTypes, span_resolveTypes]
    simp only [htest]
  | collect span range name test image, bound, origin, context => by
    have htest : ∀ number item, evalTest env (resolveOptional env (name :: bound) test)
        (origin.child (2 * number + 1)) (context.bind name item) =
          evalTest env test (origin.child (2 * number + 1))
            ((env.namingTypes bound context).bind name item) := by
      intro number item
      rw [evalTest_resolveOptional test, Environment.namingTypes_bind]
    have himage : ∀ number item, (resolveTypes env (name :: bound) image).eval env
        (origin.child (2 * number + 2)) (context.bind name item) =
          image.eval env (origin.child (2 * number + 2))
            ((env.namingTypes bound context).bind name item) := by
      intro number item
      rw [eval_resolveTypes image, Environment.namingTypes_bind]
    rw [resolveTypes, eval, eval, eval_resolveTypes range, span_resolveTypes]
    simp only [htest, himage]
  | conditional _ condition yes no, bound, origin, context => by
    rw [resolveTypes, eval, eval, eval_resolveTypes condition, eval_resolveTypes yes,
      eval_resolveTypes no, span_resolveTypes]
  | binary _ _ left right, bound, origin, context => by
    rw [resolveTypes, eval, eval, eval_resolveTypes left, eval_resolveTypes right,
      span_resolveTypes, span_resolveTypes]
  | unary _ _ operand, bound, origin, context => by
    rw [resolveTypes, eval, eval, eval_resolveTypes operand]

theorem evalOptional_resolveOptional : ∀ (e : Option Expr) (bound : List String)
    (origin : Origin) (context : Context),
    evalOptional env (resolveOptional env bound e) origin context =
      evalOptional env e origin (env.namingTypes bound context)
  | none, _, _, _ => rfl
  | some e, bound, origin, context => by
    rw [resolveOptional, evalOptional, evalOptional, eval_resolveTypes e]

theorem evalTest_resolveOptional : ∀ (e : Option Expr) (bound : List String)
    (origin : Origin) (context : Context),
    evalTest env (resolveOptional env bound e) origin context =
      evalTest env e origin (env.namingTypes bound context)
  | none, _, _, _ => rfl
  | some e, bound, origin, context => by
    rw [resolveOptional, evalTest, evalTest, eval_resolveTypes e, span_resolveTypes]

theorem evalItems_resolveItems : ∀ (items : List Expr) (bound : List String) (origin : Origin)
    (part : Nat) (context : Context),
    evalItems env (resolveItems env bound items) origin part context =
      evalItems env items origin part (env.namingTypes bound context)
  | [], _, _, _, _ => rfl
  | e :: rest, bound, origin, part, context => by
    rw [resolveItems, evalItems, evalItems, eval_resolveTypes e, evalItems_resolveItems rest]

theorem evalEntries_resolveEntries : ∀ (entries : List (Expr × Expr)) (bound : List String)
    (origin : Origin) (part : Nat) (context : Context),
    evalEntries env (resolveEntries env bound entries) origin part context =
      evalEntries env entries origin part (env.namingTypes bound context)
  | [], _, _, _, _ => rfl
  | (key, e) :: rest, bound, origin, part, context => by
    rw [resolveEntries, evalEntries, evalEntries, eval_resolveTypes key, eval_resolveTypes e,
      evalEntries_resolveEntries rest]

end

end Eval

end Expr

/-! ## Names that stay -/

/-- A name that a loop binds or that is declared. -/
def Occurrence.Held (env : Environment) : Occurrence → Prop
  | name bound _ x => x ∈ bound ∨ x ∈ env.declared.keys
  | call _ _ _ _ _ => False

instance (env : Environment) : (o : Occurrence) → Decidable (o.Held env)
  | .name bound _ x => inferInstanceAs (Decidable (x ∈ bound ∨ x ∈ env.declared.keys))
  | .call _ _ _ _ _ => inferInstanceAs (Decidable False)

theorem Occurrence.filter_held (env : Environment) (occurrences : List Occurrence) :
    (occurrences.filterMap (resolve env)).filter (·.Held env) =
      occurrences.filter (·.Held env) := by
  induction occurrences with
  | nil => rfl
  | cons o rest ih =>
    cases o with
    | name bound span x =>
      by_cases htype : env.IsTypeName bound x
      · have hfree : ¬ (name bound span x).Held env := fun h => h.elim htype.1 htype.2.1
        simp [resolve, htype, hfree, ih]
      · simp [resolve, htype, List.filter_cons, ih]
    | call bound span target function args =>
      have hcall : ∀ target args, ¬ (call bound span target function args).Held env :=
        fun _ _ h => h
      simp [resolve, hcall, ih]

/-! ## Main result -/

/-- **Resolving the names of types keeps the meaning of an expression.** The program gives in a
context what the expression as it was read gives in the context where the name of each type that is
no declared name is that name as a string; the names that a loop binds or that are declared are the
same in both. -/
theorem resolution_keeps_meaning (env : Environment) (henv : env.Made) (source : String) (e : Expr)
    (p : Program) (hparse : Expr.parse source = .ok e) (hcompile : env.compile source = .ok p) :
    (∀ origin context, p.eval origin context = e.eval env origin fun x =>
      if env.IsTypeName [] x then some (.string x) else context x) ∧
    (p.expr.occurrences []).filter (·.Held env) = (e.occurrences []).filter (·.Held env) := by
  obtain ⟨e', hparse', -, rfl⟩ := Environment.compile_eq_ok.mp hcompile
  cases hparse.symm.trans hparse'
  refine ⟨fun origin context => ?_, ?_⟩
  · rw [← henv.namingTypes_eq]
    exact Expr.eval_resolveTypes e [] origin context
  · rw [Expr.occurrences_resolveTypes, Occurrence.filter_held]

/-- In the environment of a template the name of the records is a string at its first occurrence
and the item of the loop at the last; `ref` is declared. -/
theorem resolution_keeps_meaning_of_loop :
    ∃ e p, Expr.parse "OrderedObject + ref + [1].map(OrderedObject, OrderedObject)[0]" = .ok e ∧
      (TemplateOptions.default.environment []).compile
        "OrderedObject + ref + [1].map(OrderedObject, OrderedObject)[0]" = .ok p ∧
      p.eval default (fun _ => some (.string "!")) =
        e.eval (TemplateOptions.default.environment []) default (fun x =>
          if (TemplateOptions.default.environment []).IsTypeName [] x then some (.string x)
          else some (.string "!")) ∧
      ((p.expr.occurrences []).filter
        (·.Held (TemplateOptions.default.environment []))).map Occurrence.span =
          [⟨16, 19⟩, ⟨45, 58⟩] := by
  obtain ⟨e, he⟩ : ∃ e, Expr.parse
      "OrderedObject + ref + [1].map(OrderedObject, OrderedObject)[0]" = .ok e :=
    failure?_eq_none.mp (by decide +kernel)
  obtain ⟨p, hp⟩ : ∃ p, (TemplateOptions.default.environment []).compile
      "OrderedObject + ref + [1].map(OrderedObject, OrderedObject)[0]" = .ok p :=
    failure?_eq_none.mp (by decide +kernel)
  have hspans : (Expr.parse
      "OrderedObject + ref + [1].map(OrderedObject, OrderedObject)[0]").toOption.map (fun e =>
        ((e.occurrences []).filter
          (·.Held (TemplateOptions.default.environment []))).map Occurrence.span) =
      some [⟨16, 19⟩, ⟨45, 58⟩] := by
    decide +kernel
  have hkeeps := resolution_keeps_meaning _ (TemplateOptions.default.environment_made []).2 _ e p
    he hp
  rw [he] at hspans
  exact ⟨e, p, he, hp, hkeeps.1 _ _, hkeeps.2 ▸ Option.some.inj hspans⟩

end JsonTemplate
