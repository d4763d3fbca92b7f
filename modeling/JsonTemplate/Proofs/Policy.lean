/-
Policies. A template that compiles under strict errors compiles under every policy, to the same
tree (`compile_withPolicy`). A policy that raises less than another expands fragments to the same
values where the other does not fail (`invoke_relaxes`), so a stricter policy only turns drops into
aborts, unless an expression hides the failure of a fragment (`stricter_policies_only_abort`).
-/
import JsonTemplate.Proofs.Checking
import JsonTemplate.Proofs.Expansion
import JsonTemplate.Proofs.Options
import JsonTemplate.Proofs.Relaxation

namespace JsonTemplate

/-! ## Relaxed outcomes -/

/-- What an outcome adds, it adds too when it is relaxed and less is raised. -/
theorem Tree.settle_relaxes {policy policy' : ErrorPolicy}
    (hpolicy : ∀ f, policy'.raises f → policy.raises f)
    {outcome outcome' : Outcome Value} (h : Relaxes (policy.raises ·) outcome outcome')
    {added : Option Value} (hadded : settle policy outcome = .ok added) :
    settle policy' outcome' = .ok added := by
  rcases h with rfl | ⟨f, rfl, hraises⟩
  · rcases outcome' with (_ | f) | v
    · exact hadded
    · simp only [settle] at hadded ⊢
      split at hadded
      · cases hadded
      · rename_i hraises
        rw [if_neg fun hf => hraises (hpolicy f hf)]
        exact hadded
    · exact hadded
  · simp [settle, hraises] at hadded

/-! ## Fragments under another policy -/

namespace FragmentCall

section Relaxed

variable {policy policy' : ErrorPolicy} (hpolicy : ∀ f, policy'.raises f → policy.raises f)
  {env env' : Environment} (hfunctions : env'.functions = env.functions)

include hpolicy hfunctions

/-- A fragment that is expanded under a policy that raises less gives the same value, unless the
other policy raised a failure. -/
theorem invoke_relaxes {text : String} {tree : Tree} (h : Tree.compile env text = .ok tree)
    (base : Activation) (origin : Origin) (args : List Value) :
    Relaxes (policy.raises ·) (invoke base policy tree origin args)
      (invoke base policy' (tree.within env') origin args) := by
  unfold invoke
  cases hexpand : tree.expand policy (base.bind "args" (.list args)).context origin with
  | error f =>
    rw [← failure?_eq_some, Tree.failure?_expand, Tree.firstRaised_eq_some] at hexpand
    obtain ⟨_, _, _, -, -, hraises, -⟩ := hexpand
    exact .inr ⟨f, rfl, hraises⟩
  | ok value =>
    refine .of_eq ?_
    rw [Tree.expand_within (fun leaf hleaf added hadded => ?_) hexpand]
    obtain ⟨source, hcompile⟩ := Tree.compile_leaves h hleaf
    obtain ⟨e, -, -, hp⟩ := Environment.compile_eq_ok.mp hcompile
    have hsame : (leaf.program.within env').eval leaf.origin
        (base.bind "args" (.list args)).context =
          leaf.outcome (base.bind "args" (.list args)).context := by
      unfold Tree.Leaf.outcome
      rw [hp]
      exact Expr.eval_of_calls (fun name _ => Environment.call_congr hfunctions name) _ _
    exact Tree.settle_relaxes hpolicy (.of_eq hsame) hadded

theorem invokeEach_relaxes {text : String} {tree : Tree} (h : Tree.compile env text = .ok tree)
    (base : Activation) (origin : Origin) (args : List Value) : ∀ (items : List Value) (part : Nat),
    Relaxes (policy.raises ·) (invokeEach base policy tree origin args part items)
      (invokeEach base policy' (tree.within env') origin args part items)
  | [], _ => .refl _
  | item :: rest, part => by
    have hfirst := invoke_relaxes hpolicy hfunctions h base (origin.child part) (item :: args)
    have hrest := invokeEach_relaxes h base origin args rest (part + 1)
    rw [invokeEach, invokeEach]
    exact hfirst.bind fun _ => hrest.bind fun _ => .refl _

/-- A call of `fragment` is relaxed when the policy raises less. -/
theorem call_relaxes {texts : List (String × String)} {fragments : Fragments}
    (h : Fragments.compile env texts = .ok fragments) (base : Activation) (origin : Origin)
    (receiver : Option Value) (args : List Value) :
    Relaxes (policy.raises ·) (call fragments base policy origin receiver args)
      (call (Entries.mapValues (Tree.within env') fragments) base policy' origin receiver
        args) := by
  unfold call
  split
  · exact .refl _
  · rename_i name args
    rw [Entries.get?_mapValues]
    cases hget : fragments.get? name with
    | none => exact .refl _
    | some tree =>
      obtain ⟨text, -, hcompile⟩ := Fragments.compile_get? h hget
      dsimp only [Option.map_some]
      split
      · exact invoke_relaxes hpolicy hfunctions hcompile base origin args
      · rename_i items
        exact (invokeEach_relaxes hpolicy hfunctions hcompile base origin args items 0).bind
          fun _ => .refl _
      · exact .refl _
  · exact .refl _

end Relaxed

/-- `fragment` never gives up the entry that it is called in. -/
theorem call_ne_removed (fragments : Fragments) (base : Activation) (policy : ErrorPolicy)
    (origin : Origin) (receiver : Option Value) (args : List Value) :
    call fragments base policy origin receiver args ≠ .error .removed := by
  have hkeeps : (function fragments base policy).Keeps (fun _ => True) (· ≠ .removed) := by
    refine function_keeps failed_invariant.toClosed fun _ tree _ origin args _ => ?_
    unfold invoke
    cases tree.expand policy (base.bind "args" (.list args)).context origin with
    | ok v => trivial
    | error f => exact nofun
  exact (hkeeps origin receiver args (fun _ _ => trivial) fun _ _ => trivial).ne_error (· rfl)

end FragmentCall

/-! ## Templates under another policy -/

namespace TemplateOptions

/-- The options with other answers to failures. -/
def withPolicy (o : TemplateOptions) (missingKeys strict : Bool) : TemplateOptions :=
  { o with missingKeyErrors := missingKeys, strictErrors := strict }

section WithPolicy

variable {o : TemplateOptions} {missing strict missing' strict' : Bool}
  (hstrict : strict' = true → strict = true)

include hstrict

theorem fragmentEnvironment_covers (free : List String) :
    Covers (o.withPolicy missing strict).fragmentEnvironment
      (o.withPolicy missing' strict').fragmentEnvironment [] free := by
  rw [fragmentEnvironment_eq, fragmentEnvironment_eq]
  exact ⟨hstrict, rfl, fun _ _ => .inr rfl, fun _ f hf => ⟨f, hf, rfl⟩⟩

theorem environment_covers (fragments fragments' : Fragments) (free : List String) :
    Covers ((o.withPolicy missing strict).environment fragments)
      ((o.withPolicy missing' strict').environment fragments') [] free := by
  rw [environment_eq, environment_eq]
  refine ⟨hstrict, rfl, fun _ _ => .inr rfl, fun name f hf => ?_⟩
  by_cases hname : name = FragmentCall.functionName
  · rw [hname, Entries.get?_insert_self] at hf ⊢
    cases hf
    exact ⟨_, rfl, rfl⟩
  · rw [Entries.get?_insert_of_ne _ _ hname] at hf ⊢
    exact ⟨f, hf, rfl⟩

end WithPolicy

/-- The fragments of a template under another policy. -/
def movedFragments (o : TemplateOptions) (fragments : Fragments) : Fragments :=
  Entries.mapValues (Tree.within o.fragmentEnvironment) fragments

/-- The same template under another policy. -/
def moved (o : TemplateOptions) (t : Template) : Template :=
  let fragments := o.movedFragments t.fragments
  ⟨t.root.within (o.environment fragments), fragments, o.baseActivation, o.policy⟩

/-- What compiles under one policy compiles under every one that is not stricter. -/
theorem compile_withPolicy {o : TemplateOptions} {missing strict missing' strict' : Bool}
    (hstrict : strict' = true → strict = true) {text : String} {t : Template}
    (h : Template.compile text (o.withPolicy missing strict) = .ok t) :
    Template.compile text (o.withPolicy missing' strict') =
      .ok ((o.withPolicy missing' strict').moved t) := by
  obtain ⟨fragments, root, hfragments, hroot, rfl⟩ := Template.compile_eq_ok.mp h
  refine Template.compile_eq_ok.mpr ⟨_, _, ?_, ?_, rfl⟩
  · exact Fragments.compile_within (fun source p hp => Environment.compile_of_covers
      (fun e _ => fragmentEnvironment_covers hstrict e.free) hp) hfragments
  · exact Tree.compile_within (fun source p hp => Environment.compile_of_covers
      (fun e _ => environment_covers hstrict _ _ e.free) hp) hroot

end TemplateOptions

/-! ## Hidden failures of fragments -/

/-- Where an expression may hide the failure of a fragment. -/
def Expr.Hides (e : Expr) (pair : List String × List String) : Prop :=
  pair ∈ e.hidings ∧ FragmentCall.functionName ∈ pair.2

namespace Template

/-- No call that may give up its entry meets the failure of a fragment: none stands on the left of
a logical operator that calls `fragment` on its right, none beside a call of `fragment` in the
test of an `all` or `exists`. -/
def Guarded (t : Template) : Prop :=
  ∀ origin, ∀ leaf ∈ t.root.leaves origin, ∀ pair, leaf.program.expr.Hides pair →
    ∀ name ∈ pair.1, leaf.program.environment.NeverRemoves name

/-- No entry is dropped for a failure where its expression may hide that of a fragment. -/
def Exposed (t : Template) (origin : Origin) (data : Document) : Prop :=
  ∀ leaf ∈ t.root.leaves origin, (∃ pair, leaf.program.expr.Hides pair) →
    ∀ f, leaf.outcome (t.base.bind "data" (.ofDocument data)).context = .error (.failed f) →
      t.policy.raises f

end Template

namespace TemplateOptions

section Relaxed

variable {o : TemplateOptions} {missing strict missing' strict' : Bool}

/-- Two environments of a template differ in what `fragment` does, and there the failures of the
stricter policy are relaxed. -/
theorem environment_relaxes
    (hpolicy : ∀ f, (o.withPolicy missing' strict').policy.raises f →
      (o.withPolicy missing strict).policy.raises f) {fragments : Fragments}
    (h : Fragments.compile (o.withPolicy missing strict).fragmentEnvironment o.fragments =
      .ok fragments) (name : String) (origin : Origin) (receiver : Option Value)
    (args : List Value) :
    Relaxes ((o.withPolicy missing strict).policy.raises ·)
      (((o.withPolicy missing strict).environment fragments).call name origin receiver args)
      (((o.withPolicy missing' strict').environment
        ((o.withPolicy missing' strict').movedFragments fragments)).call name origin receiver
          args) := by
  rw [environment_eq, environment_eq]
  unfold Environment.call
  by_cases hname : name = FragmentCall.functionName
  · rw [hname, Entries.get?_insert_self, Entries.get?_insert_self]
    dsimp only [FragmentCall.function]
    split
    · refine FragmentCall.call_relaxes hpolicy ?_ h _ origin receiver args
      rw [fragmentEnvironment_eq, fragmentEnvironment_eq]
      rfl
    · exact .refl _
  · rw [Entries.get?_insert_of_ne _ _ hname, Entries.get?_insert_of_ne _ _ hname]
    exact .refl _

theorem environment_call_of_ne {fragments fragments' : Fragments} {name : String}
    (h : name ≠ FragmentCall.functionName) :
    ((o.withPolicy missing' strict').environment fragments').call name =
      ((o.withPolicy missing strict).environment fragments).call name := by
  funext origin receiver args
  rw [environment_eq, environment_eq, Environment.call, Environment.call,
    Entries.get?_insert_of_ne _ _ h, Entries.get?_insert_of_ne _ _ h]
  rfl

theorem fragment_neverRemoves (o : TemplateOptions) (fragments : Fragments) :
    (o.environment fragments).NeverRemoves FragmentCall.functionName := by
  intro origin receiver args
  rw [environment_eq, Environment.call, Entries.get?_insert_self]
  dsimp only
  split
  · exact FragmentCall.call_ne_removed _ _ _ origin receiver args
  · intro h
    cases h

/-- What never removes under one policy never does under another. -/
theorem neverRemoves_withPolicy {fragments fragments' : Fragments} {name : String}
    (h : ((o.withPolicy missing strict).environment fragments).NeverRemoves name) :
    ((o.withPolicy missing' strict').environment fragments').NeverRemoves name := by
  by_cases hname : name = FragmentCall.functionName
  · rw [hname]
    exact fragment_neverRemoves _ _
  · intro origin receiver args
    rw [environment_call_of_ne hname]
    exact h origin receiver args

/-- Where nothing is hidden, an expansion that succeeds under one policy gives the same value under
every policy that raises less. -/
theorem expandValue_moved
    (hpolicy : ∀ f, (o.withPolicy missing' strict').policy.raises f →
      (o.withPolicy missing strict).policy.raises f) {text : String} {t : Template}
    (h : Template.compile text (o.withPolicy missing strict) = .ok t) (hguarded : t.Guarded)
    {origin : Origin} {data : Document} (hexposed : t.Exposed origin data) {value : Value}
    (hvalue : t.expandValue origin (.ofDocument data) = .ok value) :
    ((o.withPolicy missing' strict').moved t).expandValue origin (.ofDocument data) =
      .ok value := by
  obtain ⟨fragments, root, hfragments, hroot, rfl⟩ := Template.compile_eq_ok.mp h
  refine Tree.expand_within (fun leaf hleaf added => ?_) hvalue
  obtain ⟨source, hcompile⟩ := Tree.compile_leaves hroot hleaf
  obtain ⟨e, -, -, hp⟩ := Environment.compile_eq_ok.mp hcompile
  have henv : leaf.program.environment = (o.withPolicy missing strict).environment fragments := by
    rw [hp]
  refine Tree.settle_relaxes hpolicy ?_
  have hcall := environment_relaxes hpolicy hfragments
  by_cases hhides : ∃ pair, leaf.program.expr.Hides pair
  · -- Here every failure counts, since none is dropped.
    have hrelaxed : Relaxed (fun _ => True) leaf.program.environment
        ((o.withPolicy missing' strict').environment
          ((o.withPolicy missing' strict').movedFragments fragments))
        leaf.program.expr.hidings := by
      refine ⟨fun _ _ _ => trivial, fun name a receiver args => ?_, fun pair hmem => ?_⟩
      · rw [henv]
        exact (hcall name a receiver args).mono fun _ _ => trivial
      · by_cases hfragment : FragmentCall.functionName ∈ pair.2
        · refine .inr ⟨fun _ => trivial, fun name hname => ?_⟩
          have hnever := hguarded origin leaf hleaf pair ⟨hmem, hfragment⟩ name hname
          exact ⟨hnever, neverRemoves_withPolicy (henv ▸ hnever)⟩
        · refine .inl fun name hname => ?_
          rw [henv]
          exact environment_call_of_ne fun heq => hfragment (heq ▸ hname)
    rcases Expr.eval_relaxes leaf.program.expr leaf.origin _ hrelaxed with hsame | ⟨f, hf, -⟩
    · exact .of_eq hsame
    · exact .inr ⟨f, hf, hexposed leaf hleaf hhides f hf⟩
  · refine Expr.eval_relaxes leaf.program.expr leaf.origin _
      ⟨fun _ _ hf => hf, fun name a receiver args => ?_, fun pair hmem => .inl fun name hname => ?_⟩
    · rw [henv]
      exact hcall name a receiver args
    · rw [henv]
      exact environment_call_of_ne fun heq => hhides ⟨pair, hmem, heq ▸ hname⟩

/-- A guarded template is guarded under another policy. -/
theorem moved_guarded {text : String} {t : Template}
    (h : Template.compile text (o.withPolicy missing strict) = .ok t) (hguarded : t.Guarded) :
    ((o.withPolicy missing' strict').moved t).Guarded := by
  obtain ⟨fragments, root, -, hroot, rfl⟩ := Template.compile_eq_ok.mp h
  intro origin leaf hleaf pair hhides name hname
  dsimp only [moved] at hleaf
  rw [Tree.leaves_within] at hleaf
  obtain ⟨before, hbefore, rfl⟩ := List.mem_map.mp hleaf
  obtain ⟨source, hcompile⟩ := Tree.compile_leaves hroot hbefore
  obtain ⟨e, -, -, hp⟩ := Environment.compile_eq_ok.mp hcompile
  have hnever := hguarded origin before hbefore pair hhides name hname
  rw [hp] at hnever
  exact neverRemoves_withPolicy hnever

end Relaxed

end TemplateOptions

theorem Template.expand_of_expandValue {t t' : Template} {origin : Origin} {data : Document}
    (hvalue : ∀ value, t.expandValue origin (.ofDocument data) = .ok value →
      t'.expandValue origin (.ofDocument data) = .ok value) {text : String}
    (h : t.expand origin data = .ok text) : t'.expand origin data = .ok text := by
  unfold expand expandTo at h ⊢
  split at h
  · cases h
  · rename_i value hok
    rw [hvalue value hok]
    exact h

/-- **Stricter policies only turn drops into aborts.** What compiles under strict errors compiles
under the other two policies. If no call that may give up its entry meets the failure of a fragment,
what expands under strict errors expands to the same text when only missing keys are raised; and so
on to the default, if no entry was dropped for a failure where its expression may hide that of a
fragment. -/
theorem stricter_policies_only_abort (o : TemplateOptions) (missing : Bool) (text : String)
    (t : Template) (h : Template.compile text (o.withPolicy missing true) = .ok t) :
    ∃ t' t'', Template.compile text (o.withPolicy true false) = .ok t' ∧
      Template.compile text (o.withPolicy false false) = .ok t'' ∧
      (t.Guarded → ∀ (origin : Origin) (data : Document) (out : String),
        (t.expand origin data = .ok out → t'.expand origin data = .ok out) ∧
        (t'.Exposed origin data → t'.expand origin data = .ok out →
          t''.expand origin data = .ok out)) := by
  have h' : Template.compile text (o.withPolicy true false) =
      .ok ((o.withPolicy true false).moved t) := TemplateOptions.compile_withPolicy (by nofun) h
  have h'' : Template.compile text (o.withPolicy false false) =
      .ok ((o.withPolicy false false).moved ((o.withPolicy true false).moved t)) :=
    TemplateOptions.compile_withPolicy (by nofun) h'
  refine ⟨_, _, h', h'', fun hguarded origin data out => ⟨?_, fun hexposed => ?_⟩⟩
  · refine Template.expand_of_expandValue fun value => TemplateOptions.expandValue_moved
      (fun _ _ => rfl) h hguarded fun _ _ _ _ _ => ?_
    obtain ⟨fragments, root, -, -, rfl⟩ := Template.compile_eq_ok.mp h
    rfl
  · exact Template.expand_of_expandValue fun value => TemplateOptions.expandValue_moved
      (fun _ hf => by cases hf) h' (TemplateOptions.moved_guarded h hguarded) hexposed

/-- A template with this fragment. -/
def TemplateOptions.ofFragment (text : String) : TemplateOptions :=
  { TemplateOptions.default with fragments := [("f", text)] }

/-- What a stricter policy gives may change: where a loop goes on after the failure of a fragment
and meets a removal, and where another failure hides that of a fragment. -/
theorem stricter_policies_may_differ :
    (let o := TemplateOptions.ofFragment "\x7b\"m\": \"1 / 0\"\x7d"
    let text := "\x7b\"k\": \"[1, 2].exists(i, i == 2 ? remove_property() : " ++
      "size(fragment('f')) == 0)\"\x7d"
    renderWith (o.withPolicy false true) text default (.object []) = .ok "\x7b\x7d" ∧
      renderWith (o.withPolicy true false) text default (.object []) =
        .ok "\x7b\"k\":true\x7d") ∧
    (let o := TemplateOptions.ofFragment "\x7b\"m\": \"ref.missing\"\x7d"
    let text := "\x7b\"k\": \"1 / 0 == 1 || size(fragment('f')) == 0\"\x7d"
    renderWith (o.withPolicy true false) text default (.object []) = .ok "\x7b\x7d" ∧
      renderWith (o.withPolicy false false) text default (.object []) =
        .ok "\x7b\"k\":true\x7d") := by
  decide +kernel

/-- A call of a fragment on the right of an operator beside a removal. Nothing meets the failures of
the fragment there. -/
theorem stricter_policies_only_abort_of_guarded :
    let o := TemplateOptions.ofFragment "\x7b\"m\": \"[1].all(i, i > 0)\"\x7d"
    let text := "\x7b\"k\": \"has(data.x) || size(fragment('f')) == 1\", " ++
      "\"r\": \"remove_property()\"\x7d"
    let out := "\x7b\"k\":true\x7d"
    ∃ t t' t'' : Template, Template.compile text (o.withPolicy false true) = .ok t ∧
      Template.compile text (o.withPolicy true false) = .ok t' ∧
      Template.compile text (o.withPolicy false false) = .ok t'' ∧
      t.expand default (.object []) = .ok out ∧ t'.expand default (.object []) = .ok out ∧
      t''.expand default (.object []) = .ok out := by
  intro o text out
  obtain ⟨t, ht⟩ : ∃ t, Template.compile text (o.withPolicy false true) = .ok t :=
    failure?_eq_none.mp (by decide +kernel)
  obtain ⟨t', t'', h', h'', himplies⟩ := stricter_policies_only_abort o false text t ht
  have hguarded : t.Guarded := by
    have hcalls : (Template.compile text (o.withPolicy false true)).toOption.all (fun t =>
        (t.root.leaves default).all fun leaf =>
          leaf.program.expr.hidings.all fun pair => pair.1.isEmpty) = true := by decide +kernel
    rw [ht] at hcalls
    simp only [Except.toOption, Option.all_some, List.all_eq_true, List.isEmpty_iff] at hcalls
    intro origin leaf hleaf pair hhides name hname
    obtain ⟨other, hother, hprogram⟩ := Tree.mem_leaves_of_mem hleaf default
    rw [hcalls other hother pair (hprogram ▸ hhides.1)] at hname
    cases hname
  have hexposed : t'.Exposed default (.object []) := by
    have hfailures : (Template.compile text (o.withPolicy true false)).toOption.all (fun t =>
        (t.root.leaves default).all fun leaf =>
          (failure? (leaf.outcome (t.base.bind "data" (.ofDocument (.object []))).context)).all
            (· = .removed)) = true := by decide +kernel
    rw [h'] at hfailures
    intro leaf hleaf _ f hf
    have hnone := List.all_eq_true.mp hfailures leaf hleaf
    rw [hf] at hnone
    cases hnone
  have hexpand : t.expand default (.object []) = .ok out := by
    have hrender : renderWith (o.withPolicy false true) text default (.object []) = .ok out := by
      decide +kernel
    rw [renderWith, ht] at hrender
    exact mapError_eq_ok.mp hrender
  have hall := himplies hguarded default (.object []) out
  exact ⟨t, t', t'', ht, h', h'', hexpand, hall.1 hexpand, hall.2 hexposed (hall.1 hexpand)⟩

end JsonTemplate
