/-
Where failures point. A failure of an expression points at one of its nodes, one that failed
itself or whose value was refused as a condition or a range (`Expr.FailsAt`), unless a function
that was called placed it (`Expr.eval_blames`). Of the engine's functions only `fragment` does, so
without host functions a failure points into the program it comes from, or else into that of a
fragment it called (`failures_point_into_their_program`).
-/
import JsonTemplate.Proofs.Answers
import JsonTemplate.Proofs.Expansion
import JsonTemplate.Proofs.Hostless
import JsonTemplate.Proofs.Enclosure

namespace JsonTemplate

/-! ## Failures without a place -/

/-- The objects of a host leave it to the expression to place their failures. -/
def Value.Placeless (v : Value) : Prop := v.Hosting (fun _ => True) (·.span = none)

theorem Value.placeless_closed {Q : Interrupt → Prop}
    (h : ∀ f : Failure, f.span = none → Q (.failed f)) : Closed Value.Placeless Q :=
  hosting_closed h fun _ _ _ => h _ rfl

namespace Interrupt

/-- An entry was given up, or the failure is of `F`. -/
def Of (F : Failure → Prop) : Interrupt → Prop
  | removed => True
  | failed f => F f

/-- The failure has no place yet, or is of `F`. -/
abbrev Loose (F : Failure → Prop) : Interrupt → Prop := Of fun f => f.span = none ∨ F f

end Interrupt

theorem Satisfies.of_imp {α : Type} {R : α → Prop} {x : Outcome α} {F F' : Failure → Prop}
    (hF : ∀ f, F f → F' f) (h : Satisfies R (Interrupt.Of F) x) :
    Satisfies R (Interrupt.Of F') x := by
  rcases x with (_ | f) | a
  · trivial
  · exact hF f h
  · exact h

/-! ## Nodes to blame -/

/-- From a context to those that the loops in it make by binding names. -/
inductive Context.Reaches : Context → Context → Prop
  | refl (context : Context) : Reaches context context
  | bind {context inner : Context} {name : String} {value : Value} :
    Reaches (context.bind name value) inner → Reaches context inner

/-- The expression fails, or its value is refused where it is a condition or a range. -/
inductive Expr.FailsAt (env : Environment) (e : Expr) (origin : Origin) (context : Context)
    (f : Failure) : Prop
  | value : e.eval env origin context = .error (.failed f) → FailsAt env e origin context f
  | condition {v} : e.eval env origin context = .ok v →
    Outcome.condition e.span (.ok v) = .error (.failed f) → FailsAt env e origin context f
  | range {v} : e.eval env origin context = .ok v →
    v.range e.span = .error (.failed f) → FailsAt env e origin context f

/-- The failure points at one of the nodes, which fails where it stands. -/
def Expr.Blamed (env : Environment) (nodes : List Expr) (context : Context) (f : Failure) : Prop :=
  ∃ n ∈ nodes, f.span = some n.span ∧
    ∃ inner origin, context.Reaches inner ∧ n.FailsAt env origin inner f

/-- The failure is of `F`, or points at one of the nodes. -/
abbrev Interrupt.Blames (env : Environment) (F : Failure → Prop) (nodes : List Expr)
    (context : Context) : Interrupt → Prop :=
  Of fun f => F f ∨ Expr.Blamed env nodes context f

theorem Expr.Blamed.mono {env : Environment} {nodes outer : List Expr} {context : Context}
    {f : Failure} (hsub : nodes ⊆ outer) (h : Blamed env nodes context f) :
    Blamed env outer context f := by
  obtain ⟨n, hn, h⟩ := h
  exact ⟨n, hsub hn, h⟩

theorem Expr.Blamed.unbound {env : Environment} {nodes : List Expr} {context : Context}
    {name : String} {value : Value} {f : Failure}
    (h : Blamed env nodes (context.bind name value) f) : Blamed env nodes context f := by
  obtain ⟨n, hn, hspan, inner, origin, hreaches, hfails⟩ := h
  exact ⟨n, hn, hspan, inner, origin, .bind hreaches, hfails⟩

/-! ## Evaluation -/

namespace Expr

section Eval

variable {env : Environment} {F : Failure → Prop}

/-- Parts of an expression are to blame, or the failure is still to be placed. -/
abbrev BlamesParts (env : Environment) (F : Failure → Prop) :
    List Expr → Context → Interrupt → Prop :=
  Interrupt.Blames env fun f => f.span = none ∨ F f

section Parts

variable {e : Expr} {origin : Origin} {context : Context}

/-- What a node is blamed for, the expression around it does not place again. -/
theorem parts_of_node {α : Type} {R : α → Prop} {x : Outcome α} {nodes outer : List Expr}
    (hsub : nodes ⊆ outer) (h : Satisfies R (Interrupt.Blames env F nodes context) x) :
    Satisfies R (BlamesParts env F outer context) x :=
  h.of_imp fun _ => Or.imp .inr (.mono hsub)

/-- What a part is blamed for that sees one more name, as an item of a loop is seen. -/
theorem parts_of_loop {α : Type} {R : α → Prop} {x : Outcome α} {nodes outer : List Expr}
    {name : String} {value : Value} (hsub : nodes ⊆ outer)
    (h : Satisfies R (Interrupt.Blames env F nodes (context.bind name value)) x) :
    Satisfies R (BlamesParts env F outer context) x :=
  h.of_imp fun _ => Or.imp .inr fun hblamed => hblamed.unbound.mono hsub

theorem parts_of_parts {α : Type} {R : α → Prop} {x : Outcome α} {nodes outer : List Expr}
    (hsub : nodes ⊆ outer) (h : Satisfies R (BlamesParts env F nodes context) x) :
    Satisfies R (BlamesParts env F outer context) x :=
  h.of_imp fun _ => Or.imp id (.mono hsub)

/-- A failure that its parts leave to it an expression places at itself. -/
theorem located_blames {parts : List Expr} {x : Outcome Value}
    (he : e.eval env origin context = .located e.span x) (hnodes : e.nodes = e :: parts)
    (hx : Closed Value.Placeless (BlamesParts env F parts context) →
      Satisfies Value.Placeless (BlamesParts env F parts context) x) :
    Satisfies Value.Placeless (Interrupt.Blames env F e.nodes context)
      (e.eval env origin context) := by
  have hx := hx (Value.placeless_closed fun _ h => .inl (.inl h))
  rw [he]
  rcases x with (_ | ⟨cause, _ | s, beneath⟩) | v
  · trivial
  · -- No part has placed the failure, so it is the expression itself that failed.
    exact .inr ⟨e, e.self_mem_nodes, rfl, context, origin, .refl context, .value he⟩
  · rcases hx with (hnone | hF) | ⟨n, hn, hblamed⟩
    · cases hnone
    · exact .inl hF
    · exact .inr ⟨n, hnodes ▸ List.mem_cons_of_mem e hn, hblamed⟩
  · exact hx

theorem condition_blames (h : Satisfies Value.Placeless (Interrupt.Blames env F e.nodes context)
    (e.eval env origin context)) :
    Satisfies (fun _ => True) (Interrupt.Blames env F e.nodes context)
      ((e.eval env origin context).condition e.span) := by
  cases he : e.eval env origin context with
  | error i =>
    rw [he] at h
    exact h
  | ok v =>
    cases hv : Outcome.condition e.span (.ok v) with
    | ok b => trivial
    | error i =>
      cases v <;> cases hv <;>
        exact .inr ⟨e, e.self_mem_nodes, rfl, context, origin, .refl context, .condition he rfl⟩

theorem range_blames (h : Satisfies Value.Placeless (Interrupt.Blames env F e.nodes context)
    (e.eval env origin context)) :
    Satisfies (fun items => ∀ v ∈ items, v.Placeless) (Interrupt.Blames env F e.nodes context)
      (e.eval env origin context >>= (·.range e.span)) := by
  cases he : e.eval env origin context with
  | error i =>
    rw [he] at h
    exact h
  | ok v =>
    rw [he] at h
    have hitems := (Value.placeless_closed (Q := fun _ => True) fun _ _ => trivial).rangeItems h
    rw [ok_bind, Value.range]
    cases hv : v.rangeItems with
    | ok items => rwa [hv] at hitems
    | error f =>
      refine .inr ⟨e, e.self_mem_nodes, rfl, context, origin, .refl context, .range he ?_⟩
      rw [Value.range, hv]

end Parts

mutual

/-- **A failure of an expression points at a node that failed**, unless it was placed by a function
that the expression called. -/
theorem eval_blames : ∀ (e : Expr) (origin : Origin) {context : Context},
    Keeps Value.Placeless (Interrupt.Loose F) env context e.calls e.free →
      Satisfies Value.Placeless (Interrupt.Blames env F e.nodes context)
        (e.eval env origin context)
  | literal _ l, _, _, _ => by cases l <;> trivial
  | list _ items, origin, _, h => located_blames rfl rfl fun inv =>
    (evalItems_blames items origin 0 h).bind fun out hout => (inv.list out).mpr hout
  | dict _ entries, origin, _, h => located_blames rfl rfl fun inv =>
    (evalEntries_blames entries origin 0 h).bind fun out hout => inv.ofMap out hout
  | ident _ name, _, _, h => located_blames rfl rfl fun _ =>
    (h.name name (by simp [free])).of_imp fun _ => .inl
  | select _ operand field, origin, _, h => by
    have hoperand := eval_blames operand (origin.child 0) h
    exact located_blames rfl rfl fun inv => (parts_of_node (by simp) hoperand).bind
      fun v hv => Satisfies.ofResult (inv.select hv field)
  | index _ operand i, origin, _, h => by
    have hoperand := eval_blames operand (origin.child 0)
      (h.mono (by simp [calls]) (by simp [free]))
    have hi := eval_blames i (origin.child 1) (h.mono (by simp [calls]) (by simp [free]))
    exact located_blames rfl rfl fun inv =>
      (parts_of_node (by simp) hoperand).bind fun v hv =>
        (parts_of_node (by simp) hi).bind fun k hk =>
          Satisfies.ofResult (inv.index hv hk)
  | call _ target function args, origin, _, h => by
    have htarget := evalOptional_blames target (origin.child 0)
      (h.mono (by simp [calls]) (by simp [free]))
    have hargs := evalItems_blames args origin 2 (h.mono (by simp [calls]) (by simp [free]))
    exact located_blames rfl rfl fun _ =>
      (parts_of_parts (by simp) htarget).bind fun receiver hreceiver =>
        (parts_of_parts (by simp) hargs).bind fun values hvalues =>
          (h.call function (by simp [calls]) _ _ _ hreceiver hvalues).of_imp fun _ => .inl
  | has _ operand field, origin, _, h => by
    have hoperand := eval_blames operand (origin.child 0) h
    exact located_blames rfl rfl fun inv => (parts_of_node (by simp) hoperand).bind
      fun v hv => (Satisfies.ofResult (inv.hasField hv field)).bind fun b _ => inv.bool b
  | quantify _ q range name test, origin, _, h => by
    have hrange := eval_blames range (origin.child 0) (h.mono (by simp [calls]) (by simp [free]))
    refine located_blames rfl rfl fun inv => ?_
    rw [← bind_assoc]
    refine (parts_of_node (by simp) (range_blames hrange)).bind
      fun items hitems => inv.run q (fun n v hv => ?_) hitems
    exact parts_of_loop (by simp) (condition_blames (eval_blames test _
      ((h.mono (by simp [calls]) (by simp [free])).bind hv)))
  | collect _ range name test image, origin, _, h => by
    have hrange := eval_blames range (origin.child 0) (h.mono (by simp [calls]) (by simp [free]))
    refine located_blames rfl rfl fun inv => ?_
    rw [← bind_assoc]
    refine (parts_of_node (by simp) (range_blames hrange)).bind
      fun items hitems => (Closed.collect (fun n v hv => ?_) (fun n v hv => ?_) 0 hitems).bind
        fun out hout => (inv.list out).mpr hout
    · exact parts_of_loop (by simp) (evalTest_blames test _
        ((h.mono (by simp [calls]) (by simp [free])).bind hv))
    · exact parts_of_loop (by simp) (eval_blames image _
        ((h.mono (by simp [calls]) (by simp [free])).bind hv))
  | conditional _ condition yes no, origin, _, h => by
    have hcondition := eval_blames condition (origin.child 0)
      (h.mono (by simp [calls]) (by simp [free]))
    have hyes := eval_blames yes (origin.child 1) (h.mono (by simp [calls]) (by simp [free]))
    have hno := eval_blames no (origin.child 2) (h.mono (by simp [calls]) (by simp [free]))
    refine located_blames rfl rfl fun _ =>
      (parts_of_node (by simp) (condition_blames hcondition)).bind fun b _ => ?_
    cases b with
    | true => exact parts_of_node (by simp) hyes
    | false => exact parts_of_node (by simp) hno
  | binary _ op left right, origin, _, h => by
    have hleft := eval_blames left (origin.child 0) (h.mono (by simp [calls]) (by simp [free]))
    have hright := eval_blames right (origin.child 1) (h.mono (by simp [calls]) (by simp [free]))
    exact located_blames rfl rfl fun inv => inv.outcome op
      (parts_of_node (by simp) hleft)
      (parts_of_node (by simp) hright)
      (parts_of_node (by simp) (condition_blames hleft))
      (parts_of_node (by simp) (condition_blames hright))
  | unary _ op operand, origin, _, h => by
    have hoperand := eval_blames operand (origin.child 0) h
    exact located_blames rfl rfl fun inv => (parts_of_node (by simp) hoperand).bind
      fun v hv => inv.unary op hv

theorem evalOptional_blames : ∀ (e : Option Expr) (origin : Origin) {context : Context},
    Keeps Value.Placeless (Interrupt.Loose F) env context (callsOfOptional e) (freeOptional e) →
      Satisfies (fun v => ∀ a ∈ v, a.Placeless) (BlamesParts env F (nodesOfOptional e) context)
        (evalOptional env e origin context)
  | none, _, _, _ => by simp [evalOptional, Satisfies]
  | some e, origin, _, h => (parts_of_node (List.Subset.refl _) (eval_blames e origin h)).bind
    fun v hv => by simpa [Satisfies] using hv

theorem evalTest_blames : ∀ (e : Option Expr) (origin : Origin) {context : Context},
    Keeps Value.Placeless (Interrupt.Loose F) env context (callsOfOptional e) (freeOptional e) →
      Satisfies (fun _ => True) (Interrupt.Blames env F (nodesOfOptional e) context)
        (evalTest env e origin context)
  | none, _, _, _ => trivial
  | some e, origin, _, h => condition_blames (eval_blames e origin h)

theorem evalItems_blames : ∀ (items : List Expr) (origin : Origin) (part : Nat)
    {context : Context},
    Keeps Value.Placeless (Interrupt.Loose F) env context (callsOfItems items) (freeItems items) →
      Satisfies (fun out => ∀ v ∈ out, v.Placeless)
        (BlamesParts env F (nodesOfItems items) context) (evalItems env items origin part context)
  | [], _, _, _, _ => by simp [evalItems, Satisfies]
  | e :: rest, origin, part, _, h => by
    have hfirst := eval_blames e (origin.child part)
      (h.mono (by simp [callsOfItems]) (by simp [freeItems]))
    have hrest := evalItems_blames rest origin (part + 1)
      (h.mono (by simp [callsOfItems]) (by simp [freeItems]))
    rw [evalItems]
    exact (parts_of_node (by simp [nodesOfItems]) hfirst).bind fun v hv =>
      (parts_of_parts (by simp [nodesOfItems]) hrest).bind fun out hout =>
        List.forall_mem_cons.mpr ⟨hv, hout⟩

theorem evalEntries_blames : ∀ (entries : List (Expr × Expr)) (origin : Origin) (part : Nat)
    {context : Context},
    Keeps Value.Placeless (Interrupt.Loose F) env context (callsOfEntries entries)
      (freeEntries entries) →
      Satisfies (fun out => ∀ pair ∈ out, pair.2.Placeless)
        (BlamesParts env F (nodesOfEntries entries) context)
        (evalEntries env entries origin part context)
  | [], _, _, _, _ => by simp [evalEntries, Satisfies]
  | (key, e) :: rest, origin, part, context, h => by
    have hkey := eval_blames key (origin.child part)
      (h.mono (by simp [callsOfEntries]) (by simp [freeEntries]))
    have hvalue := eval_blames e (origin.child (part + 1))
      (h.mono (by simp [callsOfEntries]) (by simp [freeEntries]))
    have hrest := evalEntries_blames rest origin (part + 2)
      (h.mono (by simp [callsOfEntries]) (by simp [freeEntries]))
    have inv : Closed Value.Placeless
        (BlamesParts env F (nodesOfEntries ((key, e) :: rest)) context) :=
      Value.placeless_closed fun _ h => .inl (.inl h)
    rw [evalEntries]
    refine (parts_of_node (by simp [nodesOfEntries]) hkey).bind fun v hv =>
      (Satisfies.ofResult (inv.mapKey hv)).bind fun k _ =>
        (parts_of_node (by simp [nodesOfEntries]) hvalue).bind fun v hv =>
          (parts_of_parts (by simp [nodesOfEntries]) hrest).bind fun out hout => ?_
    exact List.forall_mem_cons.mpr ⟨hv, hout⟩

end

end Eval

end Expr

/-! ## Programs -/

/-- The failure points at a node of the program that failed, which spans some characters of the
source, and these are the excerpt. -/
def Program.Owns (p : Program) (context : Context) (f : Failure) : Prop :=
  ∃ n ∈ p.expr.nodes, f.span = some n.span ∧
    (∃ inner origin, context.Reaches inner ∧ n.FailsAt p.environment origin inner f) ∧
    ∃ before inside after, p.source.toList = before ++ inside ++ after ∧ inside ≠ [] ∧
      n.span = ⟨Text.byteLength before, Text.byteLength (before ++ inside)⟩ ∧
      p.excerpt f = some (String.ofList inside)

theorem Program.owns_of_blamed {p : Program} (hwithin : p.expr.Within p.source.toList)
    {context : Context} {f : Failure} (h : Expr.Blamed p.environment p.expr.nodes context f) :
    p.Owns context f := by
  obtain ⟨n, hn, hspan, hfails⟩ := h
  have hplace := hwithin n.span (List.mem_map_of_mem hn)
  obtain ⟨before, inside, after, htext, hne, hstart, hstop⟩ :=
    hplace.start.between hplace.stop hplace.lt
  have heq : n.span = ⟨Text.byteLength before, Text.byteLength (before ++ inside)⟩ := by
    rw [← hstart, ← hstop]
  refine ⟨n, hn, hspan, hfails, before, inside, after, htext, hne, heq, ?_⟩
  rw [excerpt, hspan, Option.bind_some, heq, Text.slice?_append htext]

/-! ## Templates -/

/-- The failure points into the program of a fragment. -/
def Fragments.Own (fragments : Fragments) (base : Activation) (f : Failure) : Prop :=
  ∃ name tree, fragments.get? name = some tree ∧ ∃ args origin, ∃ leaf ∈ tree.leaves origin,
    leaf.program.Owns (base.bind "args" (.list args)).context f

namespace TemplateOptions

/-- The values that the host gives leave it to the expressions to place failures, and there are no
functions. -/
structure Placeless (o : TemplateOptions) : Prop where
  functions : o.functions = []
  reference : ∀ v ∈ o.reference, v.Placeless
  constants : ∀ pair ∈ o.constants, pair.2.Placeless

namespace Placeless

variable {o : TemplateOptions} (h : o.Placeless)

include h

theorem hostless (F : Failure → Prop) : o.Hostless Value.Placeless (Interrupt.Loose F) where
  closed := Value.placeless_closed fun _ => .inl
  functions := h.functions
  reference := h.reference
  constants := h.constants
  removed := trivial
  refused _ _ _ _ := .inl rfl
  undeclared _ _ := .inl rfl

/-- A failure of a compiled program is its own, unless a function placed it. -/
theorem eval_owns {F : Failure → Prop} {env : Environment} {source : String} {p : Program}
    (hp : env.compile source = .ok p) {context : Context}
    (hcalls : ∀ name ∈ p.expr.calls, ∀ f, env.functions.get? name = some f →
      name ∈ builtin ∧ f.Keeps Value.Placeless (Interrupt.Loose F))
    (hcontext : ∀ x v, context x = some v → v.Placeless) (origin : Origin) :
    Satisfies Value.Placeless (Interrupt.Of fun f => F f ∨ p.Owns context f)
      (p.eval origin context) := by
  obtain ⟨rfl, hkeeps⟩ := (h.hostless F).keeps hp hcalls hcontext
  exact (Expr.eval_blames p.expr origin hkeeps).of_imp fun _ =>
    Or.imp id (Program.owns_of_blamed (Environment.compile_within hp))

section Fragments

variable {fragments : Fragments}
  (hfragments : Fragments.compile o.fragmentEnvironment o.fragments = .ok fragments)

include hfragments

/-- A failure of a program of a fragment is its own, since no fragment calls another. -/
theorem fragment_owns {name : String} {tree : Tree} (htree : fragments.get? name = some tree)
    {place : Origin} {leaf : Tree.Leaf} (hleaf : leaf ∈ tree.leaves place)
    {context : Context} (hcontext : ∀ x v, context x = some v → v.Placeless) (origin : Origin) :
    Satisfies Value.Placeless (Interrupt.Of (leaf.program.Owns context))
      (leaf.program.eval origin context) := by
  obtain ⟨_, -, hcompile⟩ := Fragments.compile_get? hfragments htree
  obtain ⟨_, hp⟩ := Tree.compile_leaves hcompile hleaf
  have hequipped := (h.hostless fun _ => False).fragmentEnvironment_equipped
  exact (h.eval_owns hp (fun name _ => hequipped name) hcontext origin).of_imp fun _ howns =>
    howns.resolve_left id

/-- What a call of a fragment fails with is raised, and points into the fragment. -/
theorem invoke_owns {name : String} {tree : Tree} (htree : fragments.get? name = some tree)
    {args : List Value} (hargs : ∀ v ∈ args, v.Placeless) (origin : Origin) :
    Satisfies Value.Placeless
      (Interrupt.Of fun f => o.policy.raises f = true ∧ fragments.Own o.baseActivation f)
      (FragmentCall.invoke o.baseActivation o.policy tree origin args) := by
  have hargs : (Value.list args).Placeless := Value.hostingItems_iff.mpr hargs
  have hleaves : ∀ leaf ∈ tree.leaves origin, Satisfies Value.Placeless
      (Interrupt.Of (leaf.program.Owns (o.baseActivation.bind "args" (.list args)).context))
      (leaf.outcome (o.baseActivation.bind "args" (.list args)).context) := fun leaf hleaf =>
    h.fragment_owns hfragments htree hleaf
      (fun _ _ => (h.hostless fun _ => False).context_keeps hargs) leaf.origin
  have hclosed : Closed Value.Placeless (Interrupt.Of fun _ => True) :=
    Value.placeless_closed fun _ _ => trivial
  have hvalue : Satisfies Value.Placeless (fun _ => True) (tree.expand o.policy
      (o.baseActivation.bind "args" (.list args)).context origin) :=
    Tree.expand_keeps hclosed fun leaf hleaf => (hleaves leaf hleaf).of_imp fun _ _ => trivial
  unfold FragmentCall.invoke
  cases hexpand : tree.expand o.policy
      (o.baseActivation.bind "args" (.list args)).context origin with
  | ok v =>
    rw [hexpand] at hvalue
    exact hvalue
  | error f =>
    obtain ⟨leaf, hleaf, hfails, hraises⟩ := Tree.expand_eq_error _ _ hexpand
    have howns := hleaves leaf hleaf
    rw [hfails] at howns
    exact ⟨hraises, name, tree, htree, args, origin, leaf, hleaf, howns⟩

/-- A program of the template itself fails by its own, or by a fragment that it calls. -/
theorem root_owns {text : String} {root : Tree}
    (hroot : Tree.compile (o.environment fragments) text = .ok root) {place : Origin}
    {leaf : Tree.Leaf} (hleaf : leaf ∈ root.leaves place) {context : Context}
    (hcontext : ∀ x v, context x = some v → v.Placeless) (origin : Origin) :
    Satisfies Value.Placeless (Interrupt.Of fun f =>
        (FragmentCall.functionName ∈ leaf.program.expr.calls ∧ o.policy.raises f = true ∧
          fragments.Own o.baseActivation f) ∨ leaf.program.Owns context f)
      (leaf.program.eval origin context) := by
  obtain ⟨_, hp⟩ := Tree.compile_leaves hroot hleaf
  -- Of the functions it may call only `fragment` has failures to place.
  refine h.eval_owns hp (fun name hname f hget => ?_) hcontext origin
  refine (h.hostless _).environment_keeps (fun hcalled _ tree htree origin args hargs => ?_) hget
  exact (h.invoke_owns hfragments htree hargs origin).of_imp fun f hf =>
    .inr ⟨hcalled ▸ hname, hf⟩

end Fragments

end Placeless

end TemplateOptions

/-- **Failures point into their own program**, for templates without host functions: at a node that
failed, on characters of the source, which are the excerpt. Only a failure that the policy raised
in a fragment, called by the program, points into the program of the fragment instead. -/
theorem failures_point_into_their_program (o : TemplateOptions) (text : String) (t : Template)
    (hhost : o.Placeless) (ht : Template.compile text o = .ok t) :
    (∀ (place : Origin), ∀ leaf ∈ t.root.leaves place, ∀ (context : Context),
      (∀ x v, context x = some v → v.Placeless) → ∀ (origin : Origin) (f : Failure),
        leaf.program.eval origin context = .error (.failed f) →
          leaf.program.Owns context f ∨
            (FragmentCall.functionName ∈ leaf.program.expr.calls ∧ t.policy.raises f = true ∧
              t.fragments.Own t.base f)) ∧
    ∀ (name : String) (tree : Tree), t.fragments.get? name = some tree →
      ∀ (place : Origin), ∀ leaf ∈ tree.leaves place, ∀ (context : Context),
        (∀ x v, context x = some v → v.Placeless) → ∀ (origin : Origin) (f : Failure),
          leaf.program.eval origin context = .error (.failed f) →
            leaf.program.Owns context f := by
  obtain ⟨fragments, root, hfragments, hroot, rfl⟩ := Template.compile_eq_ok.mp ht
  refine ⟨fun place leaf hleaf context hcontext origin f hf => ?_,
    fun name tree htree place leaf hleaf context hcontext origin f hf => ?_⟩
  · have howns := hhost.root_owns hfragments hroot hleaf hcontext origin
    rw [hf] at howns
    exact howns.symm
  · have howns := hhost.fragment_owns hfragments htree hleaf hcontext origin
    rw [hf] at howns
    exact howns

/-- The failure of a fragment has a place that is no node's of the program that called it, and lies
beyond its source. -/
theorem fragment_failure_points_beyond_caller :
    let o : TemplateOptions := { TemplateOptions.default with
      strictErrors := true
      fragments := [("f", "\x7b\"m\": \"[1, 2, 3, 4, 5, 6, 7, 8, 9, 1 / 0]\"\x7d")] }
    ∃ t, Template.compile "\x7b\"k\": \"fragment('f')\"\x7d" o = .ok t ∧
      ∃ leaf ∈ t.root.leaves default, ∃ f,
        leaf.outcome (t.base.bind "data" (.ofDocument (.object []))).context =
          .error (.failed f) ∧
        (∀ n ∈ leaf.program.expr.nodes, f.span ≠ some n.span) ∧ leaf.program.excerpt f = none := by
  intro o
  obtain ⟨t, ht⟩ : ∃ t, Template.compile "\x7b\"k\": \"fragment('f')\"\x7d" o = .ok t :=
    failure?_eq_none.mp (by decide +kernel)
  have hleaf : (Template.compile "\x7b\"k\": \"fragment('f')\"\x7d" o).toOption.all (fun t =>
      (t.root.leaves default).any fun leaf =>
        decide (failure? (leaf.outcome (t.base.bind "data" (.ofDocument (.object []))).context) =
          some (.failed ⟨.divisionByZero, some ⟨28, 33⟩, none⟩)) &&
        leaf.program.expr.nodes.all (fun n => decide (some ⟨28, 33⟩ ≠ some n.span)) &&
        decide (leaf.program.excerpt ⟨.divisionByZero, some ⟨28, 33⟩, none⟩ = none)) = true := by
    decide +kernel
  rw [ht] at hleaf
  simp only [Except.toOption, Option.all_some, List.any_eq_true, Bool.and_eq_true,
    List.all_eq_true, decide_eq_true_eq] at hleaf
  obtain ⟨leaf, hmem, ⟨hfails, hnodes⟩, hexcerpt⟩ := hleaf
  exact ⟨t, ht, leaf, hmem, _, failure?_eq_some.mp hfails, hnodes, hexcerpt⟩

/-- An index out of range in a loop, in a template with a fragment. -/
theorem failures_point_into_their_program_of_index :
    let o : TemplateOptions := { TemplateOptions.default with
      constants := [("limit", .ofNat 3)]
      fragments := [("f", "\x7b\"m\": \"args\"\x7d")] }
    let context := (o.baseActivation.bind "data" (.ofDocument (.array [.null]))).context
    ∃ t, Template.compile "\x7b\"k\": \"data.map(d, [d][limit])\"\x7d" o = .ok t ∧
      ∃ leaf ∈ t.root.leaves default, ∃ f,
        leaf.outcome context = .error (.failed f) ∧ leaf.program.Owns context f := by
  intro o context
  obtain ⟨t, ht⟩ : ∃ t, Template.compile "\x7b\"k\": \"data.map(d, [d][limit])\"\x7d" o = .ok t :=
    failure?_eq_none.mp (by decide +kernel)
  have hleaf : (Template.compile "\x7b\"k\": \"data.map(d, [d][limit])\"\x7d" o).toOption.all
      (fun t => (t.root.leaves default).any fun leaf =>
        decide (failure? (leaf.outcome context) =
          some (.failed ⟨.indexOutOfRange (.ofNat 3) 1, some ⟨12, 22⟩, none⟩)) &&
        decide (FragmentCall.functionName ∉ leaf.program.expr.calls)) = true := by
    decide +kernel
  rw [ht] at hleaf
  simp only [Except.toOption, Option.all_some, List.any_eq_true, Bool.and_eq_true,
    decide_eq_true_eq] at hleaf
  obtain ⟨leaf, hmem, hfails, hcalls⟩ := hleaf
  have hfails := failure?_eq_some.mp hfails
  have hhost : o.Placeless := by
    refine ⟨rfl, fun v hv => (by cases hv), fun pair hpair => ?_⟩
    rw [List.mem_singleton.mp hpair]
    trivial
  have hcontext : ∀ x v, context x = some v → v.Placeless := fun _ _ =>
    (hhost.hostless fun _ => False).context_keeps (Value.ofDocument_hosting _)
  obtain ⟨hroot, -⟩ := failures_point_into_their_program o _ t hhost ht
  rcases hroot _ leaf hmem context hcontext _ _ hfails with howns | ⟨hcall, -⟩
  · exact ⟨t, ht, leaf, hmem, _, hfails, howns⟩
  · exact absurd hcall hcalls

end JsonTemplate
