/-
Calling a fragment and writing it in place. A fragment that does not refer to the input compiles in
place of its call where `args` is a name of the host. It makes its objects at other places there,
and functions that only know objects by their identity cannot tell, so it is written in the same
way (`fragment_call_eq_inlined`). One container more stands around it in place, so it may nest one
container less than a document that is read.
-/
import JsonTemplate.Function.Typed
import JsonTemplate.Proofs.Checking
import JsonTemplate.Proofs.Dependence
import JsonTemplate.Proofs.Expansion
import JsonTemplate.Proofs.Nesting
import JsonTemplate.Proofs.Options
import JsonTemplate.Proofs.Scoping

namespace JsonTemplate

open Value (Like)

/-- Where the host has no function `fragment`, there is none beside that of the engine. -/
theorem TemplateOptions.library_fragment {o : TemplateOptions}
    (hnamed : ∀ f ∈ o.functions, f.signature.name ≠ FragmentCall.functionName) :
    o.library.get? FragmentCall.functionName = none := by
  cases hget : o.library.get? FragmentCall.functionName with
  | none => rfl
  | some f =>
    have hstandard : ∀ f ∈ Standard.functions, f.signature.name ≠ FragmentCall.functionName := by
      decide
    obtain ⟨h | rfl | h, hname⟩ := mem_of_library hget
    · exact absurd hname (hstandard f h)
    · exact absurd hname (by decide)
    · exact absurd hname (hnamed f h)

/-! ## The call of a fragment -/

namespace FragmentCall

/-- The parameters of a call: the name, then arguments of any type. -/
def parameters : List Parameter :=
  ⟨"name", .string, true⟩ :: (List.range maxArguments).map fun i => ⟨s!"arg{i + 1}", .any, false⟩

theorem signature_eq :
    signature = ⟨functionName, [⟨none, parameters⟩, ⟨some .list, parameters⟩]⟩ := rfl

theorem takes_arguments {n : Nat} (h : n ≤ maxArguments) :
    (⟨none, parameters⟩ : Overload).takes false (n + 1) = true := by
  have hrequired : (⟨none, parameters⟩ : Overload).required = 1 := rfl
  have hlength : parameters.length = maxArguments + 1 := rfl
  simp only [Overload.takes, hrequired, hlength]
  simp [h]

/-- Anything may stand for an argument after the name. -/
theorem all_arguments {α : Type} {p : Parameter → α → Bool} (hany : ∀ q a, q.type = .any → p q a)
    (values : List α) : ((values.zip parameters.tail).all fun (a, q) => p q a) = true := by
  refine List.all_eq_true.mpr fun ⟨a, q⟩ hmem => hany q a ?_
  obtain ⟨i, -, rfl⟩ := List.mem_map.mp (List.of_mem_zip hmem).2
  rfl

/-- A call with a name and at most five values is accepted. -/
theorem signature_accepts (name : String) {values : List Value}
    (h : values.length ≤ maxArguments) :
    signature.accepts none (.string name :: values) = true := by
  have harguments := all_arguments (p := fun q v => q.type.matches v)
    (fun q v hq => by rw [hq]; rfl) values
  have haccepts : (⟨none, parameters⟩ : Overload).accepts none (.string name :: values) = true := by
    simp only [Overload.accepts, Option.isSome_none, List.length_cons, takes_arguments h,
      Overload.acceptsReceiver, Bool.true_and]
    exact harguments
  rw [signature_eq, Signature.accepts]
  simp [haccepts]

/-- A call with a literal name and at most five arguments may be accepted. -/
theorem signature_mayAccept (name : String) {known : List (Option Literal)}
    (h : known.length ≤ maxArguments) :
    signature.mayAccept none (some (.string name) :: known) = true := by
  have harguments := all_arguments (p := fun q k => q.type.mayMatch k)
    (fun q k hq => by rw [hq]; cases k <;> rfl) known
  have haccepts : (⟨none, parameters⟩ : Overload).mayAccept none (some (.string name) :: known) =
      true := by
    simp only [Overload.mayAccept, Option.isSome_none, List.length_cons, takes_arguments h,
      Overload.mayAcceptTarget, Bool.true_and]
    exact harguments
  rw [signature_eq, Signature.mayAccept]
  simp [haccepts]

end FragmentCall

namespace Expr

variable {env : Environment}

theorem located_span {α : Type} {span : Span} {x : Outcome α} {f : Failure}
    (h : Outcome.located span x = .error (.failed f)) : f.span.isSome := by
  rcases x with (_ | ⟨cause, _ | s, beneath⟩) | v <;> cases h <;> rfl

/-- A failure of an expression points into its source. -/
theorem eval_span {e : Expr} {origin : Origin} {context : Context} {f : Failure}
    (h : e.eval env origin context = .error (.failed f)) : f.span.isSome := by
  cases e <;> rw [eval] at h <;> first | exact located_span h | cases h

theorem evalItems_length : ∀ {items : List Expr} {origin : Origin} {part : Nat}
    {context : Context} {values : List Value},
    evalItems env items origin part context = .ok values → values.length = items.length
  | [], _, _, _, _, h => by cases h; rfl
  | _ :: _, _, _, _, _, h => by
    simp only [evalItems, bind_eq_ok] at h
    obtain ⟨_, -, rest, hrest, h⟩ := h
    cases h
    simp [evalItems_length hrest]

end Expr

/-! ## The two templates -/

namespace TemplateOptions

/-- The options with `args` among the names of the host. -/
def withArgs (o : TemplateOptions) (values : List Value) : TemplateOptions :=
  { o with constants := o.constants.insert "args" (.list values) }

variable {o : TemplateOptions} {values : List Value}

theorem mem_names_withArgs {x : String} :
    x ∈ (o.withArgs values).names.keys ↔ x ∈ o.names.keys ∨ x = "args" := by
  rw [mem_names, mem_names, or_assoc]
  exact or_congr_right Entries.mem_keys_insert

/-- The fragments compile as before: `args` is a name there in any case. -/
theorem fragmentEnvironment_withArgs (free : List String) :
    Covers o.fragmentEnvironment (o.withArgs values).fragmentEnvironment [] free := by
  rw [fragmentEnvironment_eq, fragmentEnvironment_eq]
  refine ⟨id, rfl, fun x _ => .inr (Entries.contains_congr ?_), fun _ f hf => ⟨f, hf, rfl⟩⟩
  rw [Entries.mem_keys_insert, Entries.mem_keys_insert, mem_names_withArgs, or_assoc, or_self]

/-- What a fragment refers to is there in place of its call, but for the input. -/
theorem environment_withArgs
    (hnamed : ∀ f ∈ o.functions, f.signature.name ≠ FragmentCall.functionName)
    (fragments : Fragments) {free : List String} (hdata : "data" ∉ free) :
    Covers o.fragmentEnvironment ((o.withArgs values).environment fragments) [] free := by
  rw [fragmentEnvironment_eq, environment_eq]
  refine ⟨id, rfl, fun x hx => .inr (Entries.contains_congr ?_), fun name f hf => ?_⟩
  · have hne : x ≠ "data" := fun heq => hdata (heq ▸ hx)
    rw [Entries.mem_keys_insert, Entries.mem_keys_insert, mem_names_withArgs]
    simp [hne]
  · have hne : name ≠ FragmentCall.functionName := by
      rintro rfl
      rw [library_fragment hnamed] at hf
      cases hf
    exact ⟨f, (Entries.get?_insert_of_ne _ _ hne).trans hf, rfl⟩

/-- A fragment sees the same values in place of its call, but for the input. -/
theorem context_withArgs (data : Value) {x : String} (hdata : x ≠ "data") :
    (o.baseActivation.bind "args" (.list values)).context x =
      ((o.withArgs values).baseActivation.bind "data" data).context x := by
  rw [Activation.context_bind, Activation.context_bind]
  simp only [Context.bind, if_neg hdata]
  by_cases hargs : x = "args"
  · rw [if_pos hargs, hargs, baseActivation_of_ne (by decide)]
    exact (Entries.get?_insert_self ..).symm
  · rw [if_neg hargs]
    by_cases href : x = "ref"
    · rw [href, baseActivation_ref, baseActivation_ref]
      rfl
    · rw [baseActivation_of_ne href, baseActivation_of_ne href]
      exact (Entries.get?_insert_of_ne _ _ hargs).symm

/-- An expression of a fragment has the same outcome in a template around it. -/
theorem outcome_withArgs
    (hnamed : ∀ f ∈ o.functions, f.signature.name ≠ FragmentCall.functionName)
    (fragments : Fragments) (data : Value) {leaf : Tree.Leaf} {source : String}
    (hdata : ∀ e, Expr.parse source = .ok e → "data" ∉ e.free)
    (h : o.fragmentEnvironment.compile source = .ok leaf.program) :
    (leaf.program.within ((o.withArgs values).environment fragments)).eval leaf.origin
        ((o.withArgs values).baseActivation.bind "data" data).context =
      leaf.outcome (o.baseActivation.bind "args" (.list values)).context := by
  obtain ⟨henv, haccounted⟩ := Environment.compile_accounted h
  obtain ⟨e, hparse, -, hp⟩ := Environment.compile_eq_ok.mp h
  have hfree : leaf.program.expr.free ⊆ e.free := by
    rw [hp]
    exact Expr.free_resolveTypes e
  unfold Tree.Leaf.outcome Program.eval
  refine (Expr.eval_congr leaf.program.expr (S := Eq) rfl
    ⟨fun _ _ part hab => hab ▸ rfl, fun name hname a b hab receiver args => ?_,
      fun x hx => ?_⟩).symm
  · obtain ⟨f, hf⟩ := Option.isSome_iff_exists.mp (haccounted.call name hname)
    rw [fragmentEnvironment_eq] at hf
    have hne : name ≠ FragmentCall.functionName := by
      rintro rfl
      rw [library_fragment hnamed] at hf
      cases hf
    have hf' : ((o.withArgs values).library.insert FragmentCall.functionName
        (FragmentCall.function fragments (o.withArgs values).baseActivation
          (o.withArgs values).policy)).get? name = some f :=
      (Entries.get?_insert_of_ne _ _ hne).trans hf
    rw [henv, fragmentEnvironment_eq, environment_eq, Program.within, Environment.call,
      Environment.call, hf, hf', hab]
  · exact context_withArgs data fun heq => hdata e hparse (heq ▸ hfree hx)

end TemplateOptions

/-! ## Calling -/

namespace Tree

variable {policy : ErrorPolicy} {context : Context} {env : Environment}

/-- A document with one member compiles to a tree with one entry. -/
theorem compile_member {text key : String} {d : Document} {t : Tree}
    (hread : Document.read? text = some (.object [(key, d)]))
    (h : ofDocument env (extend "" (escapeStep key)) d = .ok t) :
    compile env text = .ok (object [(key, t)]) := by
  rw [compile, hread]
  simp only [compileDocument, ofDocument, ofEntries, h]
  rfl

/-- The root of a compiled text is never left out. -/
theorem expandNode_eq_expand {text : String} {t : Tree} (h : compile env text = .ok t)
    (origin : Origin) :
    t.expandNode policy context origin = (t.expand policy context origin).map some := by
  rcases compile_container h with ⟨entries, rfl⟩ | ⟨items, rfl⟩
  · rw [expand, expandNode]
    cases expandEntries policy context entries origin 0 <;> rfl
  · rw [expand, expandNode]
    cases expandItems policy context items origin 0 <;> rfl

/-- A failure that ends an expansion ends that of the template around the call in the same way:
the policy raises it again, and it points where it pointed. -/
theorem settle_call {text : String} {t : Tree} (h : compile env text = .ok t) (span : Span)
    (origin : Origin) :
    settle policy (.located span (.ofResult (t.expand policy context origin))) =
      t.expandNode policy context origin := by
  rw [expandNode_eq_expand h]
  cases hexpand : t.expand policy context origin with
  | ok v => rfl
  | error f =>
    rw [← failure?_eq_some, failure?_expand, firstRaised_eq_some] at hexpand
    obtain ⟨_, leaf, _, -, houtcome, hraises, -⟩ := hexpand
    have hspan := Expr.eval_span houtcome
    obtain ⟨cause, _ | place, beneath⟩ := f
    · cases hspan
    · exact if_pos hraises

end Tree

/-- A call of a fragment expands it, once the arguments have values. -/
theorem Expr.eval_fragment {o : TemplateOptions} {fragments : Fragments} {name : String}
    {tree : Tree} (htree : fragments.get? name = some tree) {es : List Expr} {origin : Origin}
    {context : Context} {values : List Value} (hlength : es.length ≤ FragmentCall.maxArguments)
    (hvalues : evalItems (o.environment fragments) es origin 3 context = .ok values)
    (span place : Span) :
    (call span none FragmentCall.functionName (literal place (.string name) :: es)).eval
        (o.environment fragments) origin context =
      .located span (.ofResult (tree.expand o.policy
        (o.baseActivation.bind "args" (.list values)).context (origin.child 1))) := by
  have hitems : evalItems (o.environment fragments) (literal place (.string name) :: es) origin 2
      context = .ok (.string name :: values) := by
    rw [evalItems, eval, hvalues]
    rfl
  have haccepts := FragmentCall.signature_accepts name
    (evalItems_length hvalues ▸ hlength : values.length ≤ FragmentCall.maxArguments)
  have hcall : (o.environment fragments).call FragmentCall.functionName (origin.child 1) none
      (.string name :: values) = .ofResult (tree.expand o.policy
        (o.baseActivation.bind "args" (.list values)).context (origin.child 1)) := by
    rw [TemplateOptions.environment_eq, Environment.call, Entries.get?_insert_self]
    simp only [FragmentCall.function, haccepts, if_true, FragmentCall.call, htree]
    rfl
  rw [eval, evalOptional, ok_bind, hitems, ok_bind, hcall]

theorem Expr.resolveItems_length (env : Environment) (bound : List String) (items : List Expr) :
    (resolveItems env bound items).length = items.length := by
  induction items with
  | nil => rfl
  | cons _ _ ih => exact congrArg (· + 1) ih

/-- A call of a fragment by a literal name is no fault. -/
theorem Expr.callFaults_fragment (o : TemplateOptions) (fragments : Fragments) (span place : Span)
    (name : String) {es : List Expr} (hlength : es.length ≤ FragmentCall.maxArguments) :
    callFaults (o.environment fragments) span none FragmentCall.functionName
      (literal place (.string name) :: es) = [] := by
  have haccepts := FragmentCall.signature_mayAccept name
    ((es.length_map literal?).symm ▸ hlength : (es.map literal?).length ≤ FragmentCall.maxArguments)
  rw [callFaults, TemplateOptions.environment_eq, Entries.get?_insert_self]
  exact if_pos haccepts

/-- The program of a call of a fragment by a literal name. -/
def FragmentCall.program (env : Environment) (source : String) (span place : Span) (name : String)
    (es : List Expr) : Program :=
  ⟨.call span none functionName (.literal place (.string name) :: Expr.resolveItems env [] es),
    source, env⟩

/-- A template that calls a fragment compiles if the arguments have no faults. -/
theorem TemplateOptions.compile_call {o : TemplateOptions} {fragments : Fragments}
    {name source text : String} {span place : Span} {es : List Expr}
    (hfragments : Fragments.compile o.fragmentEnvironment o.fragments = .ok fragments)
    (htext : Document.read? text = some (.object [("k", .string source)]))
    (hparse : Expr.parse source =
      .ok (.call span none FragmentCall.functionName (.literal place (.string name) :: es)))
    (hlength : es.length ≤ FragmentCall.maxArguments)
    (hfaults : Expr.faultsOfItems (o.environment fragments) []
      (Expr.resolveItems (o.environment fragments) [] es) = []) :
    Template.compile text o = .ok ⟨.object [("k", .expression
      (FragmentCall.program (o.environment fragments) source span place name es))], fragments,
      o.baseActivation, o.policy⟩ := by
  let program := FragmentCall.program (o.environment fragments) source span place name es
  have hprogram : (o.environment fragments).compile source = .ok program := by
    refine Environment.compile_eq_ok.mpr ⟨_, hparse, ?_, rfl⟩
    have hlength' : (Expr.resolveItems (o.environment fragments) [] es).length ≤
        FragmentCall.maxArguments := by rwa [Expr.resolveItems_length]
    have hcall := Expr.callFaults_fragment o fragments span place name hlength'
    simp only [Expr.resolveTypes, Expr.resolveOptional, Expr.resolveItems, Expr.faults,
      Expr.faultsOfOptional, Expr.faultsOfItems, hfaults, hcall, List.append_nil]
  have hleaf (path : String) : Tree.ofDocument (o.environment fragments) path (.string source) =
      .ok (.expression program) := by
    rw [Tree.ofDocument, hprogram]
  exact Template.compile_eq_ok.mpr
    ⟨fragments, _, hfragments, Tree.compile_member htext (hleaf _), rfl⟩

/-- A fragment compiles in place of its call. -/
theorem TemplateOptions.compile_placed {o : TemplateOptions} {fragments : Fragments}
    {fragment : String} {d : Document} {tree : Tree} (values : List Value)
    (hnamed : ∀ f ∈ o.functions, f.signature.name ≠ FragmentCall.functionName)
    (hfragments : Fragments.compile o.fragmentEnvironment o.fragments = .ok fragments)
    (hread : Document.readWithin? 126 fragment = some d)
    (hdata : ∀ string ∈ d.strings, ∀ e, Expr.parse string = .ok e → "data" ∉ e.free)
    (htree : Tree.ofDocument o.fragmentEnvironment "" d = .ok tree) :
    ∃ fragments', Template.compile ("\x7b\"k\": " ++ fragment ++ "\x7d") (o.withArgs values) =
      .ok ⟨.object [("k", tree.within ((o.withArgs values).environment fragments'))], fragments',
        (o.withArgs values).baseActivation, o.policy⟩ := by
  have hfragments' : Fragments.compile (o.withArgs values).fragmentEnvironment o.fragments =
      .ok (Entries.mapValues (Tree.within (o.withArgs values).fragmentEnvironment) fragments) :=
    Fragments.compile_within (fun source p hp => Environment.compile_of_covers
      (fun e _ => fragmentEnvironment_withArgs e.free) hp) hfragments
  generalize Entries.mapValues (Tree.within (o.withArgs values).fragmentEnvironment) fragments =
    fragments' at hfragments'
  have hplaced (path : String) :
      Tree.ofDocument ((o.withArgs values).environment fragments') path d =
        .ok (tree.within ((o.withArgs values).environment fragments')) :=
    Tree.ofDocument_within path (fun source hmem p hp => Environment.compile_of_covers
      (fun e he => environment_withArgs hnamed fragments' (hdata source hmem e he)) hp) htree
  exact ⟨fragments', Template.compile_eq_ok.mpr ⟨fragments', _, hfragments',
    Tree.compile_member (Document.read?_member hread) (hplaced _), rfl⟩⟩

/-! ## The two places -/

namespace FragmentCall

/-- What is there before a call at the place expands its fragment: the known objects, and those
that were made for the arguments. -/
def Before (known : Origin → Prop) (call a : Origin) : Prop :=
  known a ∨ ∃ n path, a = (call.child (3 + n)).below path

variable {known : Origin → Prop} {call place : Origin}

/-- The fragment is expanded at a place of its own. -/
theorem not_before_expansion (hknown : ∀ path, ¬ known (call.below path)) (path : List Nat) :
    ¬ Before known call ((call.child 1).below path) := by
  rw [Origin.below_child]
  rintro (h | ⟨n, other, h⟩)
  · exact hknown _ h
  · rw [Origin.below_child] at h
    have hstep : 1 = 3 + n := by
      simpa using congrArg List.getLast? (Origin.below_inj h)
    omega

/-- Nothing that is there before is at another place. -/
theorem not_before_apart (hknown : ∀ path, ¬ known (place.below path))
    (hapart : ∀ p q, call.below p ≠ place.below q) (path : List Nat) :
    ¬ Before known call (place.below path) := by
  rintro (h | ⟨n, other, h⟩)
  · exact hknown _ h
  · rw [Origin.below_child] at h
    exact hapart _ _ h.symm

end FragmentCall

namespace TemplateOptions

variable {known : Origin → Prop} {o : TemplateOptions} {fragments : Fragments}
  {call place : Origin} {data : Document} {es : List Expr} {values : List Value}

/-- The values of the arguments hold no objects but such that are there before the expansion. -/
theorem arguments_known (ho : o.Uniform known)
    (hfragments : Fragments.compile o.fragmentEnvironment o.fragments = .ok fragments)
    (hvalues : Expr.evalItems (o.environment fragments) es call 3
      (o.baseActivation.bind "data" (.ofDocument data)).context = .ok values) :
    ∀ v ∈ values, v.Known (FragmentCall.Before known call) := by
  have hR : Renames known fun a b => a = b ∧ FragmentCall.Before known call a :=
    .self fun _ => .inl
  have hplaces (n : Nat) : Places (fun a b => a = b ∧ FragmentCall.Before known call a)
      (call.child (3 + n)) (call.child (3 + n)) := fun path => ⟨rfl, .inr ⟨n, path, rfl⟩⟩
  have hnames (x : String) : Option.Rel (Like fun a b => a = b ∧ FragmentCall.Before known call a)
      ((o.baseActivation.bind "data" (.ofDocument data)).context x)
      ((o.baseActivation.bind "data" (.ofDocument data)).context x) :=
    ho.bind hR fun _ => .ofDocument data
  have hagree := Expr.evalItems_like es hplaces
    ⟨hR.faithful, fun _ _ f hf => environment_uniform ho hfragments hf _ hR, fun x _ => hnames x⟩
  rw [hvalues] at hagree
  obtain ⟨others, hothers, hlike⟩ := hagree.of_ok
  cases hothers
  exact fun v hv => List.forall₂_same.mp hlike v hv

/-- A fragment adds alike values where a call expands it and at a place apart from the call. -/
theorem fragment_moved (ho : o.Uniform known)
    (hfragments : Fragments.compile o.fragmentEnvironment o.fragments = .ok fragments)
    {name : String} {tree : Tree} (htree : fragments.get? name = some tree)
    (hknown : ∀ path, ¬ known (call.below path)) (hknown' : ∀ path, ¬ known (place.below path))
    (hapart : ∀ p q, call.below p ≠ place.below q)
    (hvalues : Expr.evalItems (o.environment fragments) es call 3
      (o.baseActivation.bind "data" (.ofDocument data)).context = .ok values) :
    Agree (Option.Rel (Like (Moved (FragmentCall.Before known call)
        fun c d => c = call.child 1 ∧ d = place)))
      (tree.expandNode o.policy (o.baseActivation.bind "args" (.list values)).context
        (call.child 1))
      (tree.expandNode o.policy (o.baseActivation.bind "args" (.list values)).context place) := by
  have hR := (Apart.single (FragmentCall.not_before_expansion hknown)
    (FragmentCall.not_before_apart hknown' hapart)).renames
  have hargs := List.forall₂_same.mpr fun v hv =>
    (arguments_known ho hfragments hvalues v hv).like hR
  exact Tree.expandNode_like tree (Moved.places ⟨rfl, rfl⟩)
    (fragment_corresponds ho (hR.weaken fun _ => .inl) hfragments htree hargs _)

end TemplateOptions

/-- The expansion of an object with one entry. -/
theorem Tree.expand_single {policy : ErrorPolicy} {context : Context} (key : String) (t : Tree)
    (origin : Origin) : (object [(key, t)]).expand policy context origin =
      (t.expandNode policy context (origin.child 0)).map fun added =>
        .record origin (added.toList.map fun v => (key, v)) := by
  rw [expand, expandNode, expandEntries, expandEntries]
  rcases t.expandNode policy context (origin.child 0) with f | _ | v <;> rfl

/-- Templates with one entry are written alike if their entries are alike. -/
theorem Template.expand_single {key : String} {t t' : Tree} {fragments fragments' : Fragments}
    {base base' : Activation} {policy policy' : ErrorPolicy} {origin origin' : Origin}
    {data : Document} {R : Origin → Origin → Prop}
    (h : Agree (Option.Rel (Like R))
      (t.expandNode policy (base.bind "data" (.ofDocument data)).context (origin.child 0))
      (t'.expandNode policy' (base'.bind "data" (.ofDocument data)).context (origin'.child 0))) :
    (⟨.object [(key, t)], fragments, base, policy⟩ : Template).expand origin data =
      (⟨.object [(key, t')], fragments', base', policy'⟩ : Template).expand origin' data := by
  unfold expand expandTo expandValue
  rw [Tree.expand_single, Tree.expand_single]
  generalize t.expandNode policy (base.bind "data" (.ofDocument data)).context (origin.child 0) = x,
    t'.expandNode policy' (base'.bind "data" (.ofDocument data)).context (origin'.child 0) = x'
    at h ⊢
  cases h with
  | error f => rfl
  | ok hadded =>
    cases hadded with
    | none => rfl
    | some hv =>
      have hwritten := Value.toJson_record (.cons key hv .nil) origin origin'
      exact congrArg (Except.mapError ExpandFault.write) hwritten

/-- **A call of a fragment equals the fragment in its place.** The fragment does not refer to the
input and leaves room for the container around it, the host offers uniform functions, none of them
called `fragment`, and the arguments have values. `known` are the objects that were there before,
and the two templates are expanded at places apart from these and from each other. -/
theorem fragment_call_eq_inlined (known : Origin → Prop) (o : TemplateOptions)
    (fragments : Fragments) (name fragment source text : String) (d : Document) (span place : Span)
    (es : List Expr) (origin origin' : Origin) (data : Document) (values : List Value)
    (hknown : ∀ path, ¬ known (origin.below path)) (hknown' : ∀ path, ¬ known (origin'.below path))
    (hapart : ∀ p q, origin.below p ≠ origin'.below q) (ho : o.Uniform known)
    (hnamed : ∀ f ∈ o.functions, f.signature.name ≠ FragmentCall.functionName)
    (hfragments : Fragments.compile o.fragmentEnvironment o.fragments = .ok fragments)
    (hfragment : o.fragments.get? name = some fragment)
    (hread : Document.readWithin? 126 fragment = some d)
    (hdata : ∀ string ∈ d.strings, ∀ e, Expr.parse string = .ok e → "data" ∉ e.free)
    (htext : Document.read? text = some (.object [("k", .string source)]))
    (hparse : Expr.parse source =
      .ok (.call span none FragmentCall.functionName (.literal place (.string name) :: es)))
    (hlength : es.length ≤ FragmentCall.maxArguments)
    (hfaults : Expr.faultsOfItems (o.environment fragments) []
      (Expr.resolveItems (o.environment fragments) [] es) = [])
    (hvalues : Expr.evalItems (o.environment fragments)
      (Expr.resolveItems (o.environment fragments) [] es) (origin.child 0) 3
      (o.baseActivation.bind "data" (.ofDocument data)).context = .ok values) :
    ∃ t t', Template.compile text o = .ok t ∧
      Template.compile ("\x7b\"k\": " ++ fragment ++ "\x7d") (o.withArgs values) = .ok t' ∧
      t.expand origin data = t'.expand origin' data := by
  obtain ⟨tree, hget, hcompile⟩ := Fragments.get?_compile hfragments hfragment
  obtain ⟨d', hread', htree⟩ := Tree.compile_eq_ok hcompile
  obtain rfl : d = d' := by
    have hwhole : Document.read? fragment = some d := Document.readWithin?_mono (by decide) hread
    exact Option.some.inj (hwhole.symm.trans hread')
  obtain ⟨fragments', hplaced⟩ :=
    TemplateOptions.compile_placed values hnamed hfragments hread hdata htree
  -- The call adds what the fragment adds at the place of the call.
  have hcalled : (Tree.expression (FragmentCall.program (o.environment fragments) source span place
      name es)).expandNode o.policy (o.baseActivation.bind "data" (.ofDocument data)).context
        (origin.child 0) =
      tree.expandNode o.policy (o.baseActivation.bind "args" (.list values)).context
        ((origin.child 0).child 1) := by
    have hlength' : (Expr.resolveItems (o.environment fragments) [] es).length ≤
        FragmentCall.maxArguments := by rwa [Expr.resolveItems_length]
    rw [Tree.expandNode, Program.eval, FragmentCall.program,
      Expr.eval_fragment hget hlength' hvalues]
    exact Tree.settle_call hcompile span _
  -- In place it adds what it adds there with its arguments under `args`.
  have hinlined : (tree.within ((o.withArgs values).environment fragments')).expandNode o.policy
      ((o.withArgs values).baseActivation.bind "data" (.ofDocument data)).context
        (origin'.child 0) =
      tree.expandNode o.policy (o.baseActivation.bind "args" (.list values)).context
        (origin'.child 0) := by
    refine Tree.expandNode_congr fun leaf hleaf => ?_
    obtain ⟨string, hmem, hstring⟩ := Tree.ofDocument_leaves htree hleaf
    exact TemplateOptions.outcome_withArgs hnamed fragments' _ (hdata string hmem) hstring
  have hcall (path : List Nat) : ¬ known ((origin.child 0).below path) := by
    rw [Origin.below_child]
    exact hknown _
  have hplace (path : List Nat) : ¬ known ((origin'.child 0).below path) := by
    rw [Origin.below_child]
    exact hknown' _
  have hapart' (p q : List Nat) : (origin.child 0).below p ≠ (origin'.child 0).below q := by
    rw [Origin.below_child, Origin.below_child]
    exact hapart _ _
  have hmoved := TemplateOptions.fragment_moved ho hfragments hget hcall hplace hapart' hvalues
  rw [← hcalled, ← hinlined] at hmoved
  exact ⟨_, _, TemplateOptions.compile_call hfragments htext hparse hlength hfaults, hplaced,
    Template.expand_single hmoved⟩

/-! ## The deepest fragment -/

/-- An empty list inside of so many others. -/
def Document.nested : Nat → Document
  | 0 => .array []
  | n + 1 => .array [nested n]

/-- The tree of an empty list inside of so many others. -/
def Tree.nested : Nat → Tree
  | 0 => .list []
  | n + 1 => .list [nested n]

theorem Tree.ofDocument_nested (env : Environment) (n : Nat) (path : String) :
    ofDocument env path (.nested n) = .ok (nested n) := by
  induction n generalizing path with
  | zero => rfl
  | succ n ih => simp [Document.nested, ofDocument, ofItems, ih, nested]

/-- As many lists as a document may nest. -/
def deepest : List Char := List.replicate 127 '[' ++ List.replicate 127 ']'

set_option maxRecDepth 100000 in
theorem Document.read?_deepest : read? (String.ofList deepest) = some (nested 126) := by
  rw [read?, readWithin?, String.toList_ofList]
  rfl

/-- One more container is too many. -/
theorem Document.read?_around_deepest :
    read? ("\x7b\"k\": " ++ String.ofList deepest ++ "\x7d") = none := by
  have htext : (String.ofList deepest).toList = deepest := String.toList_ofList
  rw [read?, readWithin?, String.toList_append, String.toList_append, htext]
  exact Option.isNone_iff_eq_none.mp (by decide +kernel)

/-- A fragment that nests as deep as a document may compiles and is expanded when it is called, but
there is no room for it in a template. -/
theorem deepest_fragment_is_only_called :
    let o := { TemplateOptions.default with fragments := [("f", String.ofList deepest)] }
    (∃ out, renderWith o "\x7b\"k\": \"fragment('f')\"\x7d" default (.object []) = .ok out) ∧
      renderWith (o.withArgs []) ("\x7b\"k\": " ++ String.ofList deepest ++ "\x7d") default
        (.object []) =
          .error (.compile (.json ("\x7b\"k\": " ++ String.ofList deepest ++ "\x7d"))) := by
  intro o
  let fragments : Fragments := [("f", .nested 126)]
  have hfragments (env : Environment) : Fragments.compile env o.fragments = .ok fragments := by
    have hcompile : Tree.compile env (String.ofList deepest) = .ok (.nested 126) := by
      rw [Tree.compile, Document.read?_deepest]
      exact Tree.ofDocument_nested env 126 ""
    exact Fragments.compile_cons.mpr ⟨_, _, hcompile, rfl, rfl⟩
  constructor
  · -- Nothing but the fragments looks at their texts, so the rest is computed without them.
    have hrest : (Tree.compile (TemplateOptions.default.environment fragments)
        "\x7b\"k\": \"fragment('f')\"\x7d").toOption.map (fun root =>
          failure? (Template.expand ⟨root, fragments, TemplateOptions.default.baseActivation,
            TemplateOptions.default.policy⟩ default (.object []))) = some none := by
      decide +kernel
    cases hroot : Tree.compile (TemplateOptions.default.environment fragments)
        "\x7b\"k\": \"fragment('f')\"\x7d" with
    | error fault =>
      rw [hroot] at hrest
      cases hrest
    | ok root =>
      rw [hroot] at hrest
      obtain ⟨out, hout⟩ := failure?_eq_none.mp (Option.some.inj hrest)
      refine ⟨out, ?_⟩
      rw [renderWith, Template.compile_eq_ok.mpr ⟨fragments, root, hfragments _, hroot, rfl⟩]
      exact mapError_eq_ok.mpr hout
  · have hroot (env : Environment) :
        Tree.compile env ("\x7b\"k\": " ++ String.ofList deepest ++ "\x7d") =
          .error (.json ("\x7b\"k\": " ++ String.ofList deepest ++ "\x7d")) := by
      rw [Tree.compile, Document.read?_around_deepest]
    have hcompile : Template.compile ("\x7b\"k\": " ++ String.ofList deepest ++ "\x7d")
        (o.withArgs []) =
          .error (.json ("\x7b\"k\": " ++ String.ofList deepest ++ "\x7d")) := by
      have hplaced : Fragments.compile (o.withArgs []).fragmentEnvironment
          (o.withArgs []).fragments = .ok fragments := hfragments _
      rw [Template.compile, hplaced, ok_bind, hroot]
      rfl
    rw [renderWith, hcompile]

/-- A function of the host that makes an object of its argument. -/
def HostFunctions.wrap : Function where
  signature := ⟨"wrap", [⟨none, [⟨"value", .any, true⟩]⟩]⟩
  call origin _ args := .ok (.record origin [("value", args.headD .null)])

theorem HostFunctions.wrap_uniform {known : Origin → Prop} : wrap.Uniform known := by
  intro R _ a b _ _ args args' hab _ hargs
  cases hargs with
  | nil => exact .ok (.record hab.self (.cons _ .null .nil))
  | cons hv _ => exact .ok (.record hab.self (.cons _ hv .nil))

/-- A fragment that makes an object of the object that it is given, and drops an entry. -/
theorem fragment_call_eq_inlined_of_wrap :
    let fragment := "\x7b\"m\": \"[wrap(args[0]), args[0]]\", \"n\": [\"ref.x\"]\x7d"
    let o := { TemplateOptions.default with
      functions := [HostFunctions.wrap], fragments := [("f", fragment)] }
    let data := Document.object [("x", .number (.integer 7))]
    let value := Value.record ⟨[1, 3, 0, 0]⟩ [("value", .number (.ofInt 7))]
    ∃ t t', Template.compile ("\x7b\"k\": " ++ "\"fragment('f', wrap(data.x))\"" ++ "\x7d") o =
        .ok t ∧
      Template.compile ("\x7b\"k\": " ++ fragment ++ "\x7d") (o.withArgs [value]) = .ok t' ∧
      t.expand ⟨[0]⟩ data = t'.expand ⟨[1]⟩ data := by
  intro fragment o data value
  obtain ⟨fragments, hfragments⟩ : ∃ fragments,
      Fragments.compile o.fragmentEnvironment o.fragments = .ok fragments :=
    failure?_eq_none.mp (by decide +kernel)
  obtain ⟨d, hread⟩ : ∃ d, Document.readWithin? 126 fragment = some d :=
    Option.isSome_iff_exists.mp (by decide +kernel)
  have hdata : (Document.readWithin? 126 fragment).all (fun d => d.strings.all fun string =>
      (Expr.parse string).toOption.all fun e => !e.free.contains "data") = true := by
    decide +kernel
  have htext : Document.read? ("\x7b\"k\": " ++ "\"fragment('f', wrap(data.x))\"" ++ "\x7d") =
      some (.object [("k", .string "fragment('f', wrap(data.x))")]) := by
    have htokens : Document.Reading.tokens? 0 "\"fragment('f', wrap(data.x))\"".toList =
        some [.string "fragment('f', wrap(data.x))"] := by
      simp [Document.Reading.tokens?, Document.Reading.next?, Document.Reading.string?,
        Document.Reading.push]
    exact Document.read?_member (Document.readWithin?_eq_some.mpr ⟨_, htokens, rfl⟩)
  have hparse : Expr.parse "fragment('f', wrap(data.x))" =
      .ok (.call ⟨0, 27⟩ none FragmentCall.functionName (.literal ⟨9, 12⟩ (.string "f") ::
        [.call ⟨14, 26⟩ none "wrap" [.select ⟨19, 25⟩ (.ident ⟨19, 23⟩ "data") "x"]])) := by
    have htokens : Token.ofSource "fragment('f', wrap(data.x))" =
        [⟨.word "fragment", ⟨0, 8⟩⟩, ⟨.mark '(', ⟨8, 9⟩⟩, ⟨.string ['f'], ⟨9, 12⟩⟩,
          ⟨.mark ',', ⟨12, 13⟩⟩, ⟨.word "wrap", ⟨14, 18⟩⟩, ⟨.mark '(', ⟨18, 19⟩⟩,
          ⟨.word "data", ⟨19, 23⟩⟩, ⟨.mark '.', ⟨23, 24⟩⟩, ⟨.word "x", ⟨24, 25⟩⟩,
          ⟨.mark ')', ⟨25, 26⟩⟩, ⟨.mark ')', ⟨26, 27⟩⟩, ⟨.finish, ⟨27, 28⟩⟩] := by
      decide +kernel
    rw [Expr.parse, htokens]
    rfl
  have hapart (p q : List Nat) : Origin.below ⟨[0]⟩ p ≠ Origin.below ⟨[1]⟩ q := by
    intro h
    simpa [Origin.below] using congrArg (fun place => place.path.getLast?) h
  have ho : o.Uniform fun _ => False := by
    refine ⟨fun f hf => ?_, fun _ _ h => ?_, fun _ h => ?_⟩
    · rw [List.mem_singleton.mp hf]
      exact HostFunctions.wrap_uniform
    · cases h
    · cases h
  refine fragment_call_eq_inlined (fun _ => False) o fragments "f" fragment _ _ d _ _ _ ⟨[0]⟩ ⟨[1]⟩
    data _ (fun _ h => h) (fun _ h => h) hapart ho (by decide) hfragments rfl hread
    (fun string hmem e he => ?_) htext hparse (by decide) ?_ ?_
  · rw [hread] at hdata
    have hfree := List.all_eq_true.mp hdata string hmem
    rw [he] at hfree
    simpa [Except.toOption] using hfree
  · rw [TemplateOptions.environment_eq]
    rfl
  · rw [TemplateOptions.environment_eq]
    rfl

end JsonTemplate
