/-
What an outcome depends on. A program asks its context for the names that occur free in its
expression and for no other, so contexts that agree on these give the same outcome, and outcomes
that are alike when the runs have places of their own. A template that does not refer to the input
gives the same text for every input (`outcome_depends_on_free_names`).
-/
import JsonTemplate.Proofs.Expansion
import JsonTemplate.Proofs.Uniformity

namespace JsonTemplate

open Value (Like Faithful)

/-! ## Runs at places of their own -/

theorem Origin.below_inj {o : Origin} {p q : List Nat} (h : o.below p = o.below q) : p = q :=
  List.append_cancel_right (congrArg Origin.path h)

/-- A known object stands for itself, and what is made at `c` or below for what is made at the same
place from `d`, for all `c` and `d` that `moves` relates. -/
def Moved (known : Origin → Prop) (moves : Origin → Origin → Prop) (a b : Origin) : Prop :=
  (a = b ∧ known a) ∨ ∃ c d path, moves c d ∧ a = c.below path ∧ b = d.below path

/-- Nothing known is at the places that are moved or below, on either side, and none of these is
below another. -/
structure Apart (known : Origin → Prop) (moves : Origin → Origin → Prop) : Prop where
  fresh : ∀ c d, moves c d → ∀ path, ¬ known (c.below path) ∧ ¬ known (d.below path)
  left : ∀ c d c' d', moves c d → moves c' d' → ∀ p q, c.below p = c'.below q → c = c' ∧ d = d'
  right : ∀ c d c' d', moves c d → moves c' d' → ∀ p q, d.below p = d'.below q → c = c' ∧ d = d'

section

variable {known : Origin → Prop} {moves : Origin → Origin → Prop}

theorem Apart.renames (h : Apart known moves) : Renames known (Moved known moves) := by
  refine ⟨?_, fun a ha => .inl ⟨rfl, ha⟩⟩
  rintro a a' b b' (⟨rfl, ha⟩ | ⟨c, d, p, hcd, rfl, rfl⟩) (⟨rfl, hb⟩ | ⟨c', d', q, hcd', rfl, rfl⟩)
  · exact Iff.rfl
  · exact ⟨fun heq => absurd (heq ▸ ha) (h.fresh _ _ hcd' q).1,
      fun heq => absurd (heq ▸ ha) (h.fresh _ _ hcd' q).2⟩
  · exact ⟨fun heq => absurd (heq ▸ hb) (h.fresh _ _ hcd p).1,
      fun heq => absurd (heq ▸ hb) (h.fresh _ _ hcd p).2⟩
  · constructor
    · intro heq
      obtain ⟨rfl, rfl⟩ := h.left _ _ _ _ hcd hcd' p q heq
      rw [Origin.below_inj heq]
    · intro heq
      obtain ⟨rfl, rfl⟩ := h.right _ _ _ _ hcd hcd' p q heq
      rw [Origin.below_inj heq]

theorem Moved.places {c d : Origin} (h : moves c d) : Places (Moved known moves) c d :=
  fun path => .inr ⟨c, d, path, h, rfl, rfl⟩

/-- A run at `a` is moved to `b`. -/
theorem Apart.single {a b : Origin} (ha : ∀ path, ¬ known (a.below path))
    (hb : ∀ path, ¬ known (b.below path)) : Apart known fun c d => c = a ∧ d = b := by
  refine ⟨?_, ?_, ?_⟩
  · rintro _ _ ⟨rfl, rfl⟩ path
    exact ⟨ha path, hb path⟩
  · rintro _ _ _ _ ⟨rfl, rfl⟩ ⟨rfl, rfl⟩ _ _ _
    exact ⟨rfl, rfl⟩
  · rintro _ _ _ _ ⟨rfl, rfl⟩ ⟨rfl, rfl⟩ _ _ _
    exact ⟨rfl, rfl⟩

end

/-! ## The free names -/

/-- Contexts that agree on the free names correspond where the values of these are known. -/
theorem Corresponds.of_known {known : Origin → Prop} {R : Origin → Origin → Prop}
    {env : Environment} {context context' : Context} {calls free : List String}
    (hR : Renames known R)
    (huniform : ∀ name ∈ calls, ∀ f, env.functions.get? name = some f → f.Uniform known)
    (hsame : ∀ x ∈ free, context x = context' x)
    (hknown : ∀ x ∈ free, ∀ v, context x = some v → v.Known known) :
    Corresponds R env context context' calls free := by
  refine ⟨hR.faithful, fun name hname f hf => huniform name hname f hf R hR, fun x hx => ?_⟩
  rw [← hsame x hx]
  cases hv : context x with
  | none => exact .none
  | some v => exact .some ((hknown x hx v hv).like hR)

namespace Program

variable {p : Program} {context context' : Context}

theorem eval_congr (h : ∀ x ∈ p.expr.free, context x = context' x) (origin : Origin) :
    p.eval origin context = p.eval origin context' := by
  refine Expr.eval_congr p.expr (S := Eq) rfl ⟨?_, ?_, h⟩
  · rintro a _ part rfl
    rfl
  · rintro name - a _ rfl receiver args
    rfl

end Program

namespace Template

variable {o : TemplateOptions} {text : String} {t : Template}

/-- Where no expression refers to the input, none of its values is asked for. -/
theorem expandValue_congr {origin : Origin} (hcompile : Template.compile text o = .ok t)
    (hdata : ∀ leaf ∈ t.root.leaves origin, "data" ∉ leaf.program.expr.free) (v v' : Value) :
    t.expandValue origin v = t.expandValue origin v' := by
  obtain ⟨fragments, root, -, hroot, rfl⟩ := compile_eq_ok.mp hcompile
  have hsame : (root.within (o.environment fragments)).expandNode o.policy
      (o.baseActivation.bind "data" v').context origin =
        root.expandNode o.policy (o.baseActivation.bind "data" v).context origin := by
    refine Tree.expandNode_congr fun leaf hleaf => ?_
    obtain ⟨source, hsource⟩ := Tree.compile_leaves hroot hleaf
    obtain ⟨_, _, _, hprogram⟩ := Environment.compile_eq_ok.mp hsource
    have henv : leaf.program.within (o.environment fragments) = leaf.program := by
      rw [hprogram, Program.within]
    rw [henv]
    refine Program.eval_congr (fun x hx => ?_) _
    have hne : x ≠ "data" := fun heq => hdata leaf hleaf (heq ▸ hx)
    simp only [Activation.context_bind, Context.bind, if_neg hne]
  rw [Tree.within_of_compile hroot] at hsame
  rw [expandValue, expandValue, Tree.expand, Tree.expand, hsame]

/-- Expansions of one template, at two places and on two inputs that no expression refers to. -/
theorem expandValue_like {known : Origin → Prop} {R : Origin → Origin → Prop} {a b : Origin}
    (hcompile : Template.compile text o = .ok t) (ho : o.Uniform known) (hR : Renames known R)
    (hab : Places R a b) (hdata : ∀ leaf ∈ t.root.leaves a, "data" ∉ leaf.program.expr.free)
    (v v' : Value) : Agree (Like R) (t.expandValue a v) (t.expandValue b v') := by
  obtain ⟨fragments, root, hfragments, hroot, rfl⟩ := compile_eq_ok.mp hcompile
  refine Tree.expand_like hab fun leaf hleaf => ⟨hR.faithful, fun name _ f hf => ?_, fun x hx => ?_⟩
  · obtain ⟨source, hsource⟩ := Tree.compile_leaves hroot hleaf
    obtain ⟨_, _, _, hprogram⟩ := Environment.compile_eq_ok.mp hsource
    rw [hprogram] at hf
    exact TemplateOptions.environment_uniform ho hfragments hf R hR
  · have hne : x ≠ "data" := fun heq => hdata leaf hleaf (heq ▸ hx)
    exact ho.bind hR fun heq => absurd heq hne

/-- What is written of alike expansions. -/
theorem expand_eq {R : Origin → Origin → Prop} {t' : Template} {a b : Origin}
    {data data' : Document} (h : Agree (Like R) (t.expandValue a (.ofDocument data))
      (t'.expandValue b (.ofDocument data'))) : t.expand a data = t'.expand b data' := by
  rw [expand, expandTo, expandTo]
  generalize t.expandValue a (.ofDocument data) = x,
    t'.expandValue b (.ofDocument data') = x' at h ⊢
  cases h with
  | error f => rfl
  | ok hv => exact congrArg (Except.mapError ExpandFault.write) hv.toJson

end Template

/-- **An outcome depends on free names only.** Contexts that agree on the free names of a program
give the same outcome, and alike outcomes at places `a` and `b` of their own, if the functions that
are called are uniform. A template whose expressions do not refer to `data` is written in the same
way whatever the input, and wherever. -/
theorem outcome_depends_on_free_names (known : Origin → Prop) (a b : Origin)
    (ha : ∀ path, ¬ known (a.below path)) (hb : ∀ path, ¬ known (b.below path)) :
    (∀ (p : Program) (context context' : Context),
      (∀ x ∈ p.expr.free, context x = context' x) →
      (∀ origin, p.eval origin context = p.eval origin context') ∧
      ((∀ name ∈ p.expr.calls, ∀ f, p.environment.functions.get? name = some f →
          f.Uniform known) →
        (∀ x ∈ p.expr.free, ∀ v, context x = some v → v.Known known) →
        Agree (Like (Moved known fun c d => c = a ∧ d = b)) (p.eval a context)
          (p.eval b context'))) ∧
    ∀ (o : TemplateOptions) (text : String) (t : Template), Template.compile text o = .ok t →
      (∀ leaf ∈ t.root.leaves a, "data" ∉ leaf.program.expr.free) →
      (∀ origin data data', t.expand origin data = t.expand origin data') ∧
      (o.Uniform known → ∀ data data', t.expand a data = t.expand b data') := by
  have hrenames := (Apart.single ha hb).renames
  have hplaces : Places (Moved known fun c d => c = a ∧ d = b) a b := Moved.places ⟨rfl, rfl⟩
  refine ⟨fun p context context' hsame => ⟨Program.eval_congr hsame, fun huniform hknown => ?_⟩,
    fun o text t hcompile hdata => ⟨fun origin data data' => ?_, fun huniform data data' => ?_⟩⟩
  · exact p.expr.eval_like hplaces (.of_known hrenames huniform hsame hknown)
  · have hdata' : ∀ leaf ∈ t.root.leaves origin, "data" ∉ leaf.program.expr.free := by
      intro leaf hleaf
      obtain ⟨other, hother, hprogram⟩ := Tree.mem_leaves_of_mem hleaf a
      rw [← hprogram]
      exact hdata other hother
    rw [Template.expand, Template.expandTo, Template.expandTo,
      Template.expandValue_congr hcompile hdata']
  · exact Template.expand_eq
      (Template.expandValue_like hcompile huniform hrenames hplaces hdata _ _)

/-- Loops that bind `data` do not refer to the input, whatever stands in it. -/
theorem outcome_depends_on_free_names_of_loops :
    let o := { TemplateOptions.default with
      functions := HostFunctions.all
      fragments := [("f", "\x7b\"m\": \"describe(args[0] + ref.size())\"\x7d")] }
    (∃ p, Environment.standard.compile "[x, 2].filter(data, data == x)" = .ok p ∧
      ∀ v, Agree (Like (Moved (fun _ => False) fun c d => c = ⟨[0]⟩ ∧ d = ⟨[1]⟩))
        (p.eval ⟨[0]⟩ (Activation.context ⟨[("x", .bool true), ("data", v)]⟩))
        (p.eval ⟨[1]⟩ (Activation.context ⟨[("x", .bool true)]⟩))) ∧
    ∃ t, Template.compile "\x7b\"k\": \"[1, 2].map(data, fragment('f', data))\"\x7d" o = .ok t ∧
      ∀ data data', t.expand ⟨[0]⟩ data = t.expand ⟨[1]⟩ data' := by
  intro o
  have main := outcome_depends_on_free_names (fun _ => False) ⟨[0]⟩ ⟨[1]⟩ (fun _ h => h)
    fun _ h => h
  constructor
  · obtain ⟨p, hp⟩ : ∃ p, Environment.standard.compile "[x, 2].filter(data, data == x)" = .ok p :=
      failure?_eq_none.mp (by decide +kernel)
    have hfree : (Environment.standard.compile "[x, 2].filter(data, data == x)").toOption.all
        (fun p => p.expr.free.all (· == "x")) = true := by decide +kernel
    rw [hp] at hfree
    have hx : ∀ x ∈ p.expr.free, x = "x" := fun x hx =>
      beq_iff_eq.mp (List.all_eq_true.mp hfree x hx)
    refine ⟨p, hp, fun v => (main.1 p _ _ fun x hmem => ?_).2 (fun name _ f hf => ?_)
      fun x hmem v hv => ?_⟩
    · rw [hx x hmem]
      rfl
    · obtain ⟨_, _, _, rfl⟩ := Environment.compile_eq_ok.mp hp
      exact Standard.functions_uniform f (Environment.mem_of_standard (Entries.mem_of_get? hf)).1
    · rw [hx x hmem] at hv
      cases hv
      exact .bool true
  · obtain ⟨t, ht⟩ : ∃ t, Template.compile
        "\x7b\"k\": \"[1, 2].map(data, fragment('f', data))\"\x7d" o = .ok t :=
      failure?_eq_none.mp (by decide +kernel)
    have hfree : (Template.compile "\x7b\"k\": \"[1, 2].map(data, fragment('f', data))\"\x7d"
        o).toOption.all (fun t => (t.root.leaves ⟨[0]⟩).all fun leaf =>
          !leaf.program.expr.free.contains "data") = true := by decide +kernel
    rw [ht] at hfree
    refine ⟨t, ht, (main.2 o _ t ht fun leaf hleaf => ?_).2
      ⟨HostFunctions.all_uniform, nofun, nofun⟩⟩
    simpa using List.all_eq_true.mp hfree leaf hleaf

end JsonTemplate
