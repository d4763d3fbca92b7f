/-
How deep an expansion goes. Expanding a tree evaluates expressions, a call of `fragment` expands a
tree again, and nothing in the trees themselves says that this ends. It does since fragments are
compiled where `fragment` is no function, so that none of them calls another: at the depth of a
template, that of its tree and of its deepest fragment, nothing is cut off an expansion, whatever
the input (`expandWithin_eq_expandValue`).
-/
import JsonTemplate.Proofs.Bounded
import JsonTemplate.Proofs.Inlining
import JsonTemplate.Proofs.Mirroring
import JsonTemplate.Proofs.Occurrences
import JsonTemplate.Proofs.Scoping

namespace JsonTemplate

/-! ## Fragments without calls of fragments -/

/-- A program that does not reach the function `fragment`: it has no such function and calls none,
and with one it would do the same. -/
structure Program.FragmentFree (p : Program) : Prop where
  unregistered : p.environment.functions.get? FragmentCall.functionName = none
  uncalled : FragmentCall.functionName ∉ p.expr.calls
  unaffected : ∀ f : Function, f.signature.name = FragmentCall.functionName →
    ∀ origin context, p.expr.eval (p.environment.register f) origin context = p.eval origin context

namespace Environment

variable {env : Environment} {source : String}

theorem compile_fragmentFree {p : Program}
    (hnone : env.functions.get? FragmentCall.functionName = none)
    (h : env.compile source = .ok p) : p.FragmentFree := by
  obtain ⟨rfl, haccounted⟩ := compile_accounted h
  refine ⟨hnone, fun hcall => ?_, fun f hf origin context => ?_⟩
  · have hregistered := haccounted.call _ hcall
    rw [hnone] at hregistered
    cases hregistered
  · refine eval_of_registered h origin fun name g hget => ?_
    have hname : name ≠ f.signature.name := by
      intro hname
      rw [hname, hf, hnone] at hget
      cases hget
    exact (Entries.get?_insert_of_ne _ _ hname).trans hget

/-- An expression with a call of a function that is not registered does not compile. -/
theorem compile_unregistered {e : Expr} (hparse : Expr.parse source = .ok e) {bound : List String}
    {span : Span} {target : Option Expr} {function : String} {args : List Expr}
    (hnone : env.functions.get? function = none)
    (hcall : .call bound span target function args ∈ e.occurrences []) :
    ∀ p, env.compile source ≠ .ok p := by
  intro p h
  obtain ⟨e', hparse', hfaults, -⟩ := compile_eq_ok.mp h
  cases hparse.symm.trans hparse'
  rw [Expr.faults_eq_offences, List.map_eq_nil_iff, List.filter_eq_nil_iff] at hfaults
  have hfine := hfaults _ hcall
  simp [Occurrence.Offends, hnone] at hfine

end Environment

namespace Tree

/-- Every string of a compiled text compiles. -/
theorem compile_strings {env : Environment} {text : String} {t : Tree}
    (h : compile env text = .ok t) {d : Document} (hread : Document.read? text = some d)
    {steps : List Document.Step} {source : String} (hat : d.at? steps = some (.string source)) :
    ∃ p, env.compile source = .ok p := by
  have hroot : (∃ entries, d = .object entries) ∨ ∃ items, d = .array items := by
    cases d with
    | object entries => exact .inl ⟨entries, rfl⟩
    | array items => exact .inr ⟨items, rfl⟩
    | _ => simp [compile, hread, compileDocument] at h
  exact (compiles_iff hread hroot).mp ⟨t, h⟩ steps source hat

end Tree

namespace Fragments

/-- Fragments of which one does not compile are refused with the name of one that does not. -/
theorem compile_error {env : Environment} {texts : List (String × String)} {name text : String}
    {fault : TemplateFault} (hmem : (name, text) ∈ texts)
    (h : Tree.compile env text = .error fault) :
    ∃ first why, compile env texts = .error (.fragment first why) := by
  induction texts with
  | nil => cases hmem
  | cons entry rest ih =>
    obtain ⟨key, first⟩ := entry
    rw [compile]
    cases htree : Tree.compile env first with
    | error why => exact ⟨key, why, rfl⟩
    | ok tree =>
      have hrest : (name, text) ∈ rest := by
        rcases List.mem_cons.mp hmem with heq | hrest
        · cases heq
          cases h.symm.trans htree
        · exact hrest
      obtain ⟨next, why, herror⟩ := ih hrest
      exact ⟨next, why, by rw [herror]; rfl⟩

theorem depth_le {fragments : Fragments} {name : String} {tree : Tree}
    (h : fragments.get? name = some tree) : tree.depth ≤ fragments.depth := by
  have hmem := Entries.mem_of_get? h
  clear h
  induction fragments with
  | nil => cases hmem
  | cons first rest ih =>
    rcases List.mem_cons.mp hmem with rfl | hmem
    · exact Nat.le_max_left _ _
    · exact Nat.le_trans (ih hmem) (Nat.le_max_right _ _)

end Fragments

/-! ## Main result -/

section Compiled

variable {o : TemplateOptions} {main : String} {t : Template}
  (hhost : ∀ f ∈ o.functions, f.signature.name ≠ FragmentCall.functionName)

include hhost

theorem TemplateOptions.fragmentEnvironment_fragment :
    o.fragmentEnvironment.functions.get? FragmentCall.functionName = none := by
  rw [fragmentEnvironment_eq]
  exact library_fragment hhost

/-- No program of a fragment reaches the function `fragment`. -/
theorem Template.fragments_free (h : Template.compile main o = .ok t) {name : String} {tree : Tree}
    (htree : t.fragments.get? name = some tree) (place : Origin) :
    ∀ leaf ∈ tree.leaves place, leaf.program.FragmentFree := by
  intro leaf hleaf
  obtain ⟨fragments, root, hfragments, -, rfl⟩ := Template.compile_eq_ok.mp h
  obtain ⟨text, -, htext⟩ := Fragments.compile_get? hfragments htree
  obtain ⟨source, hsource⟩ := Tree.compile_leaves htext hleaf
  have hnone := TemplateOptions.fragmentEnvironment_fragment hhost
  exact Environment.compile_fragmentFree hnone hsource

/-- At its depth nothing is cut off an expansion. -/
theorem Template.expandWithin_eq_expandValue (h : Template.compile main o = .ok t)
    (cut : Outcome Value) {bound : Nat} (hbound : t.depth ≤ bound) (origin : Origin)
    (data : Value) : t.expandValueWithin cut bound origin data = t.expandValue origin data := by
  -- Fragments have no `fragment` to call, so they need no more than their own depth; the programs
  -- of the tree need that of the fragments.
  have henter : ∀ bound, t.fragments.depth ≤ bound → ∀ name tree,
      t.fragments.get? name = some tree →
      t.enter (t.expandWithin cut bound) tree = FragmentCall.invoke t.base t.policy tree := by
    intro bound hbound name tree htree
    funext place args
    have hserves : ∀ leaf ∈ tree.leaves place, t.Serves cut 0 leaf.program.environment :=
      fun leaf hleaf _ _ =>
        dispatch_of_none (t.fragments_free hhost h htree place leaf hleaf).unregistered
    rw [enter, t.expandWithin_eq cut 0 bound tree _ place
      (Nat.le_trans (Fragments.depth_le htree) hbound) hserves]
    rfl
  have hserves : ∀ leaf ∈ t.root.leaves origin,
      t.Serves cut t.fragments.depth leaf.program.environment := by
    intro leaf hleaf bound hbound
    refine dispatch_of_own ?_ (henter bound hbound)
    obtain ⟨fragments, root, -, hroot, rfl⟩ := Template.compile_eq_ok.mp h
    obtain ⟨source, hsource⟩ := Tree.compile_leaves hroot hleaf
    rw [(Environment.compile_accounted hsource).1, TemplateOptions.environment_eq]
    exact Entries.get?_insert_self ..
  rw [expandValueWithin, t.expandWithin_eq cut _ bound t.root _ origin hbound hserves]
  rfl

end Compiled

/-- **Fragments do not nest, and so every expansion ends.** Where the host has no function
`fragment`, a text with a call of it in one of its strings is no fragment. No program of a
fragment of a compiled template reaches the function, and expanding the template goes no deeper
than its tree and one fragment do: with that bound nothing is cut off, whatever the input. -/
theorem fragments_do_not_nest (o : TemplateOptions)
    (hhost : ∀ f ∈ o.functions, f.signature.name ≠ FragmentCall.functionName) :
    (∀ name text d steps source e bound span target args, (name, text) ∈ o.fragments →
      Document.read? text = some d → d.at? steps = some (.string source) →
      Expr.parse source = .ok e →
      .call bound span target FragmentCall.functionName args ∈ e.occurrences [] →
      (∃ fault, Tree.compile o.fragmentEnvironment text = .error fault) ∧
        ∀ main, ∃ first fault, Template.compile main o = .error (.fragment first fault)) ∧
    ∀ main t, Template.compile main o = .ok t →
      (∀ name tree, t.fragments.get? name = some tree → ∀ place, ∀ leaf ∈ tree.leaves place,
        leaf.program.FragmentFree) ∧
      ∀ cut bound, t.depth ≤ bound → ∀ origin data,
        t.expandValueWithin cut bound origin data = t.expandValue origin data := by
  refine ⟨?_, fun main t h => ⟨fun name tree htree place => t.fragments_free hhost h htree place,
    fun cut bound hbound origin data =>
      t.expandWithin_eq_expandValue hhost h cut hbound origin data⟩⟩
  intro name text d steps source e bound span target args hmem hread hat hparse hcall
  have hrefused : ∃ fault, Tree.compile o.fragmentEnvironment text = .error fault := by
    cases htree : Tree.compile o.fragmentEnvironment text with
    | error fault => exact ⟨fault, rfl⟩
    | ok tree =>
      obtain ⟨p, hp⟩ := Tree.compile_strings htree hread hat
      exact absurd hp (Environment.compile_unregistered hparse
        (TemplateOptions.fragmentEnvironment_fragment hhost) hcall p)
  refine ⟨hrefused, fun main => ?_⟩
  obtain ⟨fault, hfault⟩ := hrefused
  obtain ⟨first, why, herror⟩ := Fragments.compile_error hmem hfault
  exact ⟨first, why, by rw [Template.compile, herror]; rfl⟩

/-- A call in a loop in a branch keeps a text from being a fragment; without it the template is
expanded within the depth of its tree and its fragment. -/
theorem fragments_do_not_nest_of_loop :
    (∀ main, ∃ first fault, Template.compile main ⟨none, false, false, [], [],
        [("inner", "\x7b\"n\": \"args[0]\"\x7d"),
          ("outer", "\x7b\"i\": [\"true ? 1 : [2].map(x, [x].fragment('inner'))\"]\x7d")]⟩ =
      .error (.fragment first fault)) ∧
    ∃ t, Template.compile "\x7b\"o\": \"data.fragment('inner')\"\x7d" ⟨none, false, false, [], [],
        [("inner", "\x7b\"n\": \"args[0]\"\x7d")]⟩ = .ok t ∧
      ∀ cut origin data, t.expandValueWithin cut 8 origin data = t.expandValue origin data := by
  constructor
  · have hplaces : (Document.read?
        "\x7b\"i\": [\"true ? 1 : [2].map(x, [x].fragment('inner'))\"]\x7d").map Document.places =
          some [([.key "i", .item 0], "true ? 1 : [2].map(x, [x].fragment('inner'))")] := by
      decide +kernel
    obtain ⟨d, hread, hd⟩ := Option.map_eq_some_iff.mp hplaces
    have hat : d.at? [.key "i", .item 0] =
        some (.string "true ? 1 : [2].map(x, [x].fragment('inner'))") := by
      rw [← Document.mem_places (Document.read?_distinct hread), hd]
      exact List.mem_singleton.mpr rfl
    have hcalled : (Expr.parse "true ? 1 : [2].map(x, [x].fragment('inner'))").toOption.any
        (fun e => (e.occurrences []).any fun
          | .call _ _ _ function _ => function == FragmentCall.functionName
          | .name _ _ _ => false) = true := by
      decide +kernel
    obtain ⟨e, hparse⟩ : ∃ e, Expr.parse "true ? 1 : [2].map(x, [x].fragment('inner'))" = .ok e :=
      failure?_eq_none.mp (by decide +kernel)
    rw [hparse] at hcalled
    obtain ⟨o, ho, hfunction⟩ := List.any_eq_true.mp hcalled
    cases o with
    | name => cases hfunction
    | call bound span target function args =>
      cases eq_of_beq hfunction
      intro main
      exact ((fragments_do_not_nest _ (by simp)).1 "outer" _ d _ _ e bound span target args
        (by simp) hread hat hparse ho).2 main
  · obtain ⟨t, ht⟩ : ∃ t, Template.compile "\x7b\"o\": \"data.fragment('inner')\"\x7d"
        ⟨none, false, false, [], [], [("inner", "\x7b\"n\": \"args[0]\"\x7d")]⟩ = .ok t :=
      failure?_eq_none.mp (by decide +kernel)
    have hdepth : (Template.compile "\x7b\"o\": \"data.fragment('inner')\"\x7d"
        ⟨none, false, false, [], [], [("inner", "\x7b\"n\": \"args[0]\"\x7d")]⟩).toOption.map
          Template.depth = some 8 := by
      decide +kernel
    rw [ht] at hdepth
    exact ⟨t, ht, fun cut origin data => ((fragments_do_not_nest _ (by simp)).2 _ t ht).2 cut 8
      (Nat.le_of_eq (Option.some.inj hdepth)) origin data⟩

end JsonTemplate
