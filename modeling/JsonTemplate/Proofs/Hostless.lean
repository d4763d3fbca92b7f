/-
Templates whose host gives values but no functions. Their expressions call the functions of the
engine and refer to words (`Environment.compile_names`), so what holds of the given values and
goes through the operations on them (`Hostless`) holds wherever the template and its fragments are
evaluated: every function keeps it, and if it does not matter where a failure is placed, so do
every compiled program (`eval_keeps`) and every expansion (`expandValue_keeps`).
-/
import JsonTemplate.Proofs.Checking
import JsonTemplate.Proofs.Scoping
import JsonTemplate.Proofs.Writable

namespace JsonTemplate

/-! ## Names of programs -/

namespace Expr

mutual

/-- The free names of a tree that can be written are names. -/
theorem Writable.free : ∀ {e : Expr}, e.Writable → ∀ x ∈ e.free, IsName x
  | literal _ _, _ => nofun
  | list _ _, h => WritableItems.free h
  | dict _ _, h => WritableEntries.free h
  | ident _ _, h => List.forall_mem_singleton.mpr h
  | select _ operand _, h | has _ operand _, h => Writable.free (e := operand) h.1
  | index _ _ _, h | binary _ _ _ _, h =>
    List.forall_mem_append.mpr ⟨Writable.free h.1, Writable.free h.2⟩
  | call _ _ _ _, h =>
    List.forall_mem_append.mpr ⟨WritableOptional.free h.2.2.1, WritableItems.free h.2.2.2⟩
  | quantify _ _ _ _ _, h => List.forall_mem_append.mpr ⟨Writable.free h.1, fun x hx =>
      Writable.free h.2.2 x (List.mem_filter.mp hx).1⟩
  | collect _ _ _ _ _, h => List.forall_mem_append.mpr ⟨Writable.free h.1, fun x hx =>
      List.forall_mem_append.mpr ⟨WritableOptional.free h.2.2.1, Writable.free h.2.2.2⟩ x
        (List.mem_filter.mp hx).1⟩
  | conditional _ _ _ _, h => List.forall_mem_append.mpr
      ⟨List.forall_mem_append.mpr ⟨Writable.free h.1, Writable.free h.2.1⟩, Writable.free h.2.2⟩
  | unary _ _ operand, h => Writable.free (e := operand) h.1

theorem WritableOptional.free : ∀ {e : Option Expr}, WritableOptional e →
    ∀ x ∈ freeOptional e, IsName x
  | none, _ => nofun
  | some _, h => Writable.free h

theorem WritableItems.free : ∀ {es : List Expr}, WritableItems es → ∀ x ∈ freeItems es, IsName x
  | [], _ => nofun
  | _ :: _, h => List.forall_mem_append.mpr ⟨Writable.free h.1, WritableItems.free h.2⟩

theorem WritableEntries.free : ∀ {es : List (Expr × Expr)}, WritableEntries es →
    ∀ x ∈ freeEntries es, IsName x
  | [], _ => nofun
  | _ :: _, h => List.forall_mem_append.mpr
      ⟨List.forall_mem_append.mpr ⟨Writable.free h.1, Writable.free h.2.1⟩,
        WritableEntries.free h.2.2⟩

end

end Expr

/-- A compiled program refers to names. -/
theorem Environment.compile_names {env : Environment} {source : String} {p : Program}
    (h : env.compile source = .ok p) : ∀ x ∈ p.expr.free, IsName x := by
  obtain ⟨e, hparse, -, rfl⟩ := compile_eq_ok.mp h
  exact fun x hx => (Expr.parse_writable hparse).free x (Expr.free_resolveTypes e hx)

/-! ## The engine's own functions -/

namespace TemplateOptions

/-- The names of the functions that the engine brings along. -/
def builtin : List String :=
  FragmentCall.functionName :: removeProperty.signature.name ::
    Standard.functions.map (·.signature.name)

/-- The host gives values of `P` and no functions, and `Q` does not mind what may come of asking
for names and functions that are not there. -/
structure Hostless (P : Value → Prop) (Q : Interrupt → Prop) (o : TemplateOptions) : Prop where
  closed : Closed P Q
  functions : o.functions = []
  reference : ∀ v ∈ o.reference, P v
  constants : ∀ pair ∈ o.constants, P pair.2
  removed : Q .removed
  refused : ∀ name ∈ builtin, ∀ values : List Value, (∀ v ∈ values, P v) →
    Q (.failed (.of (.noSuchOverload name (values.map Value.typeName))))
  undeclared : ∀ x, IsName x → Q (.failed (.of (.undeclaredReference x)))

/-- The functions of an environment are the engine's and keep an invariant. -/
def Equipped (P : Value → Prop) (Q : Interrupt → Prop) (env : Environment) : Prop :=
  ∀ name f, env.functions.get? name = some f → name ∈ builtin ∧ f.Keeps P Q

namespace Hostless

variable {P : Value → Prop} {Q : Interrupt → Prop} {o : TemplateOptions} (h : o.Hostless P Q)

include h

theorem library_keeps {name : String} {f : Function} (hget : o.library.get? name = some f) :
    name ∈ builtin ∧ f.Keeps P Q := by
  obtain ⟨hmem, rfl⟩ := mem_of_library hget
  rcases hmem with hmem | rfl | hmem
  · refine ⟨?_, Standard.functions_keep h.closed f hmem⟩
    exact List.mem_cons_of_mem _ (List.mem_cons_of_mem _ (List.mem_map_of_mem hmem))
  · exact ⟨List.mem_cons_of_mem _ List.mem_cons_self, fun _ _ _ _ _ => h.removed⟩
  · rw [h.functions] at hmem
    cases hmem

theorem fragmentEnvironment_equipped : Equipped P Q o.fragmentEnvironment := by
  rw [fragmentEnvironment_eq]
  exact fun _ _ => h.library_keeps

/-- The functions of the template itself: `fragment` keeps what the fragments keep. -/
theorem environment_keeps {fragments : Fragments} {name : String} {f : Function}
    (hinvoke : name = FragmentCall.functionName → ∀ called tree,
      fragments.get? called = some tree → ∀ origin args, (∀ v ∈ args, P v) →
        Satisfies P Q (FragmentCall.invoke o.baseActivation o.policy tree origin args))
    (hget : (o.environment fragments).functions.get? name = some f) :
    name ∈ builtin ∧ f.Keeps P Q := by
  rw [environment_eq] at hget
  by_cases hname : name = FragmentCall.functionName
  · rw [hname, Entries.get?_insert_self] at hget
    cases hget
    exact ⟨hname ▸ List.mem_cons_self, FragmentCall.function_keeps h.closed (hinvoke hname)⟩
  · rw [Entries.get?_insert_of_ne _ _ hname] at hget
    exact h.library_keeps hget

/-- What names stand for beside the values of the host. -/
theorem context_keeps {name : String} {value : Value} (hvalue : P value) {x : String} {v : Value}
    (hget : (o.baseActivation.bind name value).context x = some v) : P v := by
  rw [Activation.context_bind, Context.bind] at hget
  split at hget
  · cases hget
    exact hvalue
  · by_cases href : x = "ref"
    · rw [href, baseActivation_ref] at hget
      cases hget
      cases hreference : o.reference with
      | none => exact h.closed.ofMap [] (List.forall_mem_nil _)
      | some v => exact h.reference v hreference
    · rw [baseActivation_of_ne href] at hget
      exact h.constants _ (Entries.mem_of_get? hget)

/-- What the names and functions of a compiled program keep. -/
theorem keeps {env : Environment} {source : String} {p : Program}
    (hp : env.compile source = .ok p) {context : Context}
    (hcalls : ∀ name ∈ p.expr.calls, ∀ f, env.functions.get? name = some f →
      name ∈ builtin ∧ f.Keeps P Q)
    (hcontext : ∀ x v, context x = some v → P v) :
    p.environment = env ∧ Keeps P Q env context p.expr.calls p.expr.free := by
  obtain ⟨rfl, haccounted⟩ := Environment.compile_accounted hp
  -- The check has found every function, but under a lax policy not every name.
  refine ⟨rfl, fun name hname origin receiver args hreceiver hargs => ?_, fun x hx => ?_⟩
  · obtain ⟨f, hf⟩ := Option.isSome_iff_exists.mp (haccounted.call name hname)
    exact Environment.call_keeps (h.refused name (hcalls name hname f hf).1)
      (fun g hg => (hcalls name hname g hg).2) origin hreceiver hargs
  · unfold Context.resolve
    split
    · rename_i hget
      exact hcontext x _ hget
    · exact h.undeclared x (Environment.compile_names hp x hx)

/-! ## Evaluation and expansion -/

section Invariant

variable (inv : Invariant P Q)

include inv

theorem eval_keeps {env : Environment} (henv : Equipped P Q env) {source : String} {p : Program}
    (hp : env.compile source = .ok p) {context : Context}
    (hcontext : ∀ x v, context x = some v → P v) (origin : Origin) :
    Satisfies P Q (p.eval origin context) := by
  obtain ⟨rfl, hkeeps⟩ := h.keeps hp (fun name _ => henv name) hcontext
  exact Expr.eval_keeps inv p.expr origin hkeeps

/-- The expressions of a compiled tree keep the invariant, whatever they see beside the values of
the host. -/
theorem leaf_keeps {env : Environment} (henv : Equipped P Q env) {text : String} {t : Tree}
    (ht : Tree.compile env text = .ok t) {name : String} {value : Value} (hvalue : P value)
    {origin : Origin} {leaf : Tree.Leaf} (hleaf : leaf ∈ t.leaves origin) :
    Satisfies P Q (leaf.outcome (o.baseActivation.bind name value).context) := by
  obtain ⟨source, hp⟩ := Tree.compile_leaves ht hleaf
  exact h.eval_keeps inv henv hp (fun _ _ => h.context_keeps hvalue) leaf.origin

section Fragments

variable {fragments : Fragments}
  (hfragments : Fragments.compile o.fragmentEnvironment o.fragments = .ok fragments)

include hfragments

theorem invoke_keeps {name : String} {tree : Tree} (htree : fragments.get? name = some tree)
    {args : List Value} (hargs : ∀ v ∈ args, P v) (policy : ErrorPolicy) (origin : Origin) :
    Satisfies P Q (FragmentCall.invoke o.baseActivation policy tree origin args) := by
  obtain ⟨text, -, hcompile⟩ := Fragments.compile_get? hfragments htree
  exact Satisfies.ofResult (Tree.expand_keeps h.closed fun _ =>
    h.leaf_keeps inv h.fragmentEnvironment_equipped hcompile ((h.closed.list args).mpr hargs))

theorem environment_equipped : Equipped P Q (o.environment fragments) :=
  fun _ _ => h.environment_keeps fun _ _ _ htree origin _ hargs =>
    h.invoke_keeps inv hfragments htree hargs o.policy origin

end Fragments

/-- **Every expansion of a template without host functions keeps the invariant.** -/
theorem expandValue_keeps {text : String} {t : Template} (ht : Template.compile text o = .ok t)
    {data : Value} (hdata : P data) (origin : Origin) :
    Satisfies P (fun f => Q (.failed f)) (t.expandValue origin data) := by
  obtain ⟨fragments, root, hfragments, hroot, rfl⟩ := Template.compile_eq_ok.mp ht
  exact Tree.expand_keeps h.closed fun _ =>
    h.leaf_keeps inv (h.environment_equipped inv hfragments) hroot hdata

end Invariant

end Hostless

end TemplateOptions

end JsonTemplate
