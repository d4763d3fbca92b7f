/-
Scoping. The checker's list of bound names and what evaluation binds are two accounts of the same
scopes. An expression without faults calls registered functions only, and where undeclared names
are rejected each of its free names is declared (`faults_nil`). So where the declared names have
values no evaluation meets an undeclared name, and what the environments of a template declare is
what their activations bind (`scoping_sound`).
-/
import JsonTemplate.Proofs.Library
import JsonTemplate.Proofs.Options

namespace JsonTemplate

/-! ## Expressions without faults -/

/-- The functions that are called are registered, and free names are bound or declared. -/
structure Accounted (env : Environment) (bound calls free : List String) : Prop where
  call : ∀ name ∈ calls, (env.functions.get? name).isSome
  name : env.rejectUndeclared = true → ∀ x ∈ free, x ∈ bound ∨ x ∈ env.declared.keys

namespace Accounted

variable {env : Environment} {bound calls calls' free free' : List String}

theorem nil : Accounted env bound [] [] := ⟨nofun, fun _ => nofun⟩

theorem append (h : Accounted env bound calls free) (h' : Accounted env bound calls' free') :
    Accounted env bound (calls ++ calls') (free ++ free') := by
  refine ⟨fun name hmem => ?_, fun hreject x hmem => ?_⟩
  · rcases List.mem_append.mp hmem with hmem | hmem
    · exact h.call name hmem
    · exact h'.call name hmem
  · rcases List.mem_append.mp hmem with hmem | hmem
    · exact h.name hreject x hmem
    · exact h'.name hreject x hmem

/-- A name that a loop binds is not free outside of it. -/
theorem unbind {name : String} (h : Accounted env (name :: bound) calls free) :
    Accounted env bound calls (free.filter (· ≠ name)) := by
  refine ⟨h.call, fun hreject x hmem => ?_⟩
  simp only [List.mem_filter, ne_eq, decide_eq_true_eq] at hmem
  rcases h.name hreject x hmem.1 with hx | hx
  · exact .inl ((List.mem_cons.mp hx).resolve_left hmem.2)
  · exact .inr hx

theorem function {span : Span} {target : Option Expr} {name : String} {args : List Expr}
    (h : Expr.callFaults env span target name args = []) : Accounted env bound [name] [] := by
  refine ⟨fun other hmem => ?_, fun _ => nofun⟩
  rw [List.mem_singleton.mp hmem]
  unfold Expr.callFaults at h
  split at h
  · cases h
  · rename_i hget
    rw [hget]
    rfl

theorem ident {span : Span} {name : String} (h : Expr.nameFaults env bound span name = []) :
    Accounted env bound [] [name] := by
  refine ⟨nofun, fun hreject x hmem => ?_⟩
  rw [List.mem_singleton.mp hmem]
  unfold Expr.nameFaults at h
  split at h
  · rename_i hname
    simp only [hreject, Bool.not_true, Bool.or_false, Bool.or_eq_true,
      List.contains_iff_mem] at hname
    exact hname.imp_right (Entries.mem_keys_iff _ _).mpr
  · cases h

end Accounted

namespace Expr

section Faults

variable {env : Environment}

mutual

/-- An expression without faults is accounted for. -/
theorem faults_nil : ∀ (e : Expr) {bound : List String}, faults env bound e = [] →
    Accounted env bound e.calls e.free
  | literal _ _, _, _ => .nil
  | list _ items, _, h => faultsOfItems_nil items h
  | dict _ entries, _, h => faultsOfEntries_nil entries h
  | ident _ _, _, h => .ident h
  | select _ operand _, _, h => faults_nil operand h
  | index _ operand i, _, h => by
    simp only [faults, List.append_eq_nil_iff] at h
    exact (faults_nil operand h.1).append (faults_nil i h.2)
  | call _ target function args, _, h => by
    simp only [faults, List.append_eq_nil_iff] at h
    have hoperands := (faultsOfOptional_nil target h.1.1).append (faultsOfItems_nil args h.1.2)
    simpa only [calls, free, List.append_nil] using hoperands.append (.function h.2)
  | has _ operand _, _, h => faults_nil operand h
  | quantify _ _ range _ test, _, h => by
    simp only [faults, List.append_eq_nil_iff] at h
    exact (faults_nil range h.1).append (faults_nil test h.2).unbind
  | collect _ range _ test image, _, h => by
    simp only [faults, List.append_eq_nil_iff] at h
    have hbody := (faultsOfOptional_nil test h.1.2).append (faults_nil image h.2)
    simpa only [calls, free, List.append_assoc] using (faults_nil range h.1.1).append hbody.unbind
  | conditional _ condition yes no, _, h => by
    simp only [faults, List.append_eq_nil_iff] at h
    exact ((faults_nil condition h.1.1).append (faults_nil yes h.1.2)).append (faults_nil no h.2)
  | binary _ _ left right, _, h => by
    simp only [faults, List.append_eq_nil_iff] at h
    exact (faults_nil left h.1).append (faults_nil right h.2)
  | unary _ _ operand, _, h => faults_nil operand h

theorem faultsOfOptional_nil : ∀ (e : Option Expr) {bound : List String},
    faultsOfOptional env bound e = [] → Accounted env bound (callsOfOptional e) (freeOptional e)
  | none, _, _ => .nil
  | some e, _, h => faults_nil e h

theorem faultsOfItems_nil : ∀ (items : List Expr) {bound : List String},
    faultsOfItems env bound items = [] →
      Accounted env bound (callsOfItems items) (freeItems items)
  | [], _, _ => .nil
  | e :: rest, _, h => by
    simp only [faultsOfItems, List.append_eq_nil_iff] at h
    exact (faults_nil e h.1).append (faultsOfItems_nil rest h.2)

theorem faultsOfEntries_nil : ∀ (entries : List (Expr × Expr)) {bound : List String},
    faultsOfEntries env bound entries = [] →
      Accounted env bound (callsOfEntries entries) (freeEntries entries)
  | [], _, _ => .nil
  | (key, e) :: rest, _, h => by
    simp only [faultsOfEntries, List.append_eq_nil_iff] at h
    exact ((faults_nil key h.1.1).append (faults_nil e h.1.2)).append
      (faultsOfEntries_nil rest h.2)

end

end Faults

end Expr

/-- What a compiled program refers to is there. -/
theorem Environment.compile_accounted {env : Environment} {source : String} {p : Program}
    (h : env.compile source = .ok p) :
    p.environment = env ∧ Accounted env [] p.expr.calls p.expr.free := by
  obtain ⟨e, -, hfaults, rfl⟩ := compile_eq_ok.mp h
  exact ⟨rfl, Expr.faults_nil _ hfaults⟩

/-! ## Values that name nothing -/

/-- What stopped an evaluation was not an undeclared name. -/
def Interrupt.Scoped : Interrupt → Prop
  | removed => True
  | failed f => f.kind ≠ .undeclaredReference

mutual

/-- No object in a value answers that a name is undeclared. -/
def Value.Scoped : Value → Prop
  | .list items => Value.ScopedItems items
  | .map entries => Value.ScopedEntries entries
  | .record _ entries => Value.ScopedEntries entries
  | .host _ _ get _ keys _ => (∀ key, Value.ScopedAnswer (get key)) ∧ Value.ScopedItems keys
  | _ => True

def Value.ScopedAnswer : Except Failure Value → Prop
  | .ok v => v.Scoped
  | .error f => f.kind ≠ .undeclaredReference

def Value.ScopedItems : List Value → Prop
  | [] => True
  | v :: rest => v.Scoped ∧ Value.ScopedItems rest

def Value.ScopedEntries : List (String × Value) → Prop
  | [] => True
  | (_, v) :: rest => v.Scoped ∧ Value.ScopedEntries rest

end

namespace Value

theorem scopedItems_iff {items : List Value} : ScopedItems items ↔ ∀ v ∈ items, v.Scoped := by
  induction items with
  | nil => simp [ScopedItems]
  | cons v rest ih => rw [ScopedItems, ih, List.forall_mem_cons]

theorem scopedEntries_iff {entries : List (String × Value)} :
    ScopedEntries entries ↔ ∀ pair ∈ entries, pair.2.Scoped := by
  induction entries with
  | nil => simp [ScopedEntries]
  | cons pair rest ih => rw [ScopedEntries, ih, List.forall_mem_cons]

/-- Being scoped goes through everything that values answer. -/
theorem scoped_invariant : Invariant Scoped Interrupt.Scoped where
  literal l := by cases l <;> trivial
  list _ := scopedItems_iff
  ofMap pairs h := scopedEntries_iff.mpr fun pair hmem => h pair (Entries.mem_of_mem_ofPairs hmem)
  record _ pairs h :=
    scopedEntries_iff.mpr fun pair hmem => h pair (Entries.mem_of_mem_ofPairs hmem)
  entry entries key v h hget := scopedEntries_iff.mp h _ (Entries.mem_of_get? hget)
  get v face key hv hface := by
    cases v with
    | record origin entries =>
      cases hface
      exact Face.get_ofEntries (scopedEntries_iff.mp hv) (by rintro ⟨⟩) origin
    | host origin type get contains keys size =>
      cases hface
      have h := hv.1 key
      dsimp only
      cases hget : get key with
      | ok a => rw [hget] at h; exact h
      | error f => rw [hget] at h; exact h
    | _ => cases hface
  keys v face hv hface k hk := by
    cases v with
    | record origin entries =>
      cases hface
      obtain ⟨key, -, rfl⟩ := List.mem_map.mp hk
      trivial
    | host origin type get contains keys size =>
      cases hface
      exact scopedItems_iff.mp hv.2 k hk
    | _ => cases hface
  failed _ _ h := h.kind_ne
  withSpan _ _ h := h

mutual

theorem ofDocument_scoped : ∀ d : Document, (ofDocument d).Scoped
  | .null | .bool _ | .number _ | .string _ => trivial
  | .array items => ofDocuments_scoped items
  | .object entries => ofDocumentEntries_scoped entries

theorem ofDocuments_scoped : ∀ ds : List Document, ScopedItems (ofDocuments ds)
  | [] => trivial
  | d :: rest => ⟨ofDocument_scoped d, ofDocuments_scoped rest⟩

theorem ofDocumentEntries_scoped : ∀ ds : List (String × Document),
    ScopedEntries (ofDocumentEntries ds)
  | [] => trivial
  | (_, d) :: rest => ⟨ofDocument_scoped d, ofDocumentEntries_scoped rest⟩

end

end Value

/-- A function that does not itself answer that a name is undeclared, given values that do not. -/
def Function.Scoped (f : Function) : Prop := f.Keeps Value.Scoped Interrupt.Scoped

/-! ## Evaluation -/

namespace Environment

/-- The functions that are not standard ones are scoped. -/
def HostScoped (env : Environment) : Prop :=
  ∀ name f, env.functions.get? name = some f → f ∈ Standard.functions ∨ f.Scoped

theorem HostScoped.function {env : Environment} (h : env.HostScoped) {name : String}
    {f : Function} (hget : env.functions.get? name = some f) : f.Scoped :=
  (h name f hget).elim (Standard.functions_keep Value.scoped_invariant.toClosed f) id

variable {env : Environment} {source : String} {p : Program} {context : Context}

/-- A compiled program meets no undeclared name where the declared ones have values. -/
theorem eval_scoped (hreject : env.rejectUndeclared = true) (henv : env.HostScoped)
    (h : env.compile source = .ok p) (hdeclared : ∀ x ∈ env.declared.keys, (context x).isSome)
    (hvalues : ∀ x v, context x = some v → v.Scoped) (origin : Origin) :
    Satisfies Value.Scoped Interrupt.Scoped (p.eval origin context) := by
  obtain ⟨rfl, haccounted⟩ := compile_accounted h
  refine Expr.eval_keeps Value.scoped_invariant p.expr origin ⟨?_, fun x hx => ?_⟩
  · intro name _ origin receiver args hreceiver hargs
    exact call_keeps (fun _ _ => nofun) (fun f hf => henv.function hf) origin hreceiver hargs
  · have hx := (haccounted.name hreject x hx).resolve_left List.not_mem_nil
    obtain ⟨v, hv⟩ := Option.isSome_iff_exists.mp (hdeclared x hx)
    simpa only [Context.resolve, hv, Satisfies] using hvalues x v hv

/-- A compiled program asks for no function but the registered ones. -/
theorem eval_of_registered (h : env.compile source = .ok p) (origin : Origin) {env' : Environment}
    (hsame : ∀ name f, env.functions.get? name = some f → env'.functions.get? name = some f) :
    p.expr.eval env' origin context = p.eval origin context := by
  obtain ⟨rfl, haccounted⟩ := compile_accounted h
  refine Expr.eval_congr p.expr rfl ⟨fun _ _ part hab => hab ▸ rfl, ?_, fun _ _ => rfl⟩
  rintro name hname origin _ rfl receiver args
  obtain ⟨f, hf⟩ := Option.isSome_iff_exists.mp (haccounted.call name hname)
  rw [call, call, hf, hsame name f hf]

end Environment

/-! ## Templates -/

namespace TemplateOptions

/-- What the host gives to a template is scoped. -/
structure HostScoped (o : TemplateOptions) : Prop where
  functions : ∀ f ∈ o.functions, f.Scoped
  constants : ∀ pair ∈ o.constants, pair.2.Scoped
  reference : ∀ v ∈ o.reference, v.Scoped

variable {o : TemplateOptions} (hhost : o.HostScoped)

include hhost

theorem library_scoped {name : String} {f : Function} (h : o.library.get? name = some f) :
    f ∈ Standard.functions ∨ f.Scoped := by
  rcases (mem_of_library h).1 with h | rfl | h
  · exact .inl h
  · exact .inr fun _ _ _ _ _ => trivial
  · exact .inr (hhost.functions f h)

theorem baseActivation_scoped {name : String} {v : Value}
    (h : o.baseActivation.context name = some v) : v.Scoped := by
  by_cases href : name = "ref"
  · rw [href, baseActivation_ref] at h
    cases h
    cases hreference : o.reference with
    | none => trivial
    | some v => exact hhost.reference v hreference
  · rw [baseActivation_of_ne href] at h
    exact hhost.constants _ (Entries.mem_of_get? h)

/-- What is declared beside the host's names is what an activation binds beside them. -/
theorem tree_scoped (hstrict : o.strictErrors = true) {env : Environment} {text : String}
    {t : Tree} (h : Tree.compile env text = .ok t) {name : String} {type : ValueType}
    (hdeclared : env.declared = o.names.insert name type)
    (hreject : env.rejectUndeclared = o.strictErrors) (henv : env.HostScoped) {value : Value}
    (hvalue : value.Scoped)
    (policy : ErrorPolicy) (origin : Origin) :
    Satisfies Value.Scoped (fun f => Interrupt.Scoped (.failed f))
      (t.expand policy (o.baseActivation.bind name value).context origin) := by
  refine Tree.expand_keeps Value.scoped_invariant.toClosed fun leaf hleaf => ?_
  obtain ⟨source, hcompile⟩ := Tree.compile_leaves h hleaf
  rw [Activation.context_bind]
  refine Environment.eval_scoped (hreject.trans hstrict) henv hcompile (fun x hx => ?_)
    (fun x v hv => ?_) leaf.origin
  · rw [hdeclared, Entries.mem_keys_iff] at hx
    unfold Context.bind
    split
    · rfl
    · rename_i hne
      rw [Entries.get?_insert_of_ne _ _ hne, ← Entries.mem_keys_iff] at hx
      exact baseActivation_isSome hx
  · unfold Context.bind at hv
    split at hv
    · cases hv
      exact hvalue
    · exact baseActivation_scoped hhost hv

/-- No expansion of a fragment meets an undeclared name. -/
theorem invoke_scoped (hstrict : o.strictErrors = true) {fragments : Fragments}
    (h : Fragments.compile o.fragmentEnvironment o.fragments = .ok fragments) {name : String}
    {tree : Tree} (htree : fragments.get? name = some tree) {args : List Value}
    (hargs : ∀ v ∈ args, v.Scoped) (origin : Origin) :
    Satisfies Value.Scoped Interrupt.Scoped
      (FragmentCall.invoke o.baseActivation o.policy tree origin args) := by
  obtain ⟨text, -, hcompile⟩ := Fragments.compile_get? h htree
  rw [fragmentEnvironment_eq] at hcompile
  have hvalue : (Value.list args).Scoped := Value.scopedItems_iff.mpr hargs
  exact Satisfies.ofResult (tree_scoped hhost hstrict hcompile rfl rfl
    (fun _ _ hget => library_scoped hhost hget) hvalue _ _)

/-- No expansion of a template meets an undeclared name. -/
theorem expandValue_scoped (hstrict : o.strictErrors = true) {text : String} {t : Template}
    (h : Template.compile text o = .ok t) {data : Value} (hdata : data.Scoped) (origin : Origin) :
    Satisfies Value.Scoped (fun f => Interrupt.Scoped (.failed f))
      (t.expandValue origin data) := by
  obtain ⟨fragments, root, hfragments, hroot, rfl⟩ := Template.compile_eq_ok.mp h
  rw [environment_eq] at hroot
  refine tree_scoped hhost hstrict hroot rfl rfl (fun name f hget => ?_) hdata _ _
  by_cases hname : name = FragmentCall.functionName
  · rw [hname, Entries.get?_insert_self] at hget
    cases hget
    exact .inr (FragmentCall.function_keeps Value.scoped_invariant.toClosed
      fun _ _ htree origin _ hargs => invoke_scoped hhost hstrict hfragments htree hargs origin)
  · rw [Entries.get?_insert_of_ne _ _ hname] at hget
    exact library_scoped hhost hget

end TemplateOptions

/-- **Static scoping is sound.** A program that rejects undeclared names meets none and calls
registered functions only, provided that the declared names have values and the host itself never
answers that a name is undeclared. So no expansion of a strict template meets one, neither of the
template itself nor of a fragment. -/
theorem scoping_sound :
    (∀ (env : Environment) (source : String) (p : Program), env.rejectUndeclared = true →
      env.HostScoped → env.compile source = .ok p → ∀ (context : Context) (origin : Origin),
      (∀ x ∈ env.declared.keys, (context x).isSome) →
      (∀ x v, context x = some v → v.Scoped) →
        (∀ f, p.eval origin context = .error (.failed f) → f.kind ≠ .undeclaredReference) ∧
        (∀ name ∈ p.expr.calls, (env.functions.get? name).isSome) ∧
        ∀ env' : Environment,
          (∀ name f, env.functions.get? name = some f → env'.functions.get? name = some f) →
          p.expr.eval env' origin context = p.eval origin context) ∧
    (∀ (o : TemplateOptions) (text : String) (t : Template), o.strictErrors = true →
      o.HostScoped → Template.compile text o = .ok t →
        (∀ (α : Type) (form : Value → Except WriteFault α) (origin : Origin) (data : Document)
          (f : Failure), t.expandTo form origin data = .error (.eval f) →
            f.kind ≠ .undeclaredReference) ∧
        ∀ (name : String) (tree : Tree), t.fragments.get? name = some tree →
          ∀ (origin : Origin) (args : List Value), (∀ v ∈ args, v.Scoped) → ∀ f : Failure,
            FragmentCall.invoke t.base t.policy tree origin args = .error (.failed f) →
              f.kind ≠ .undeclaredReference) := by
  refine ⟨fun env source p hreject henv h context origin hdeclared hvalues => ⟨fun f hf => ?_,
    (Environment.compile_accounted h).2.call, fun env' => Environment.eval_of_registered h origin⟩,
    fun o text t hstrict hhost h => ⟨fun α form origin data f hf => ?_,
      fun name tree htree origin args hargs f hf => ?_⟩⟩
  · have hscoped := Environment.eval_scoped hreject henv h hdeclared hvalues origin
    rw [hf] at hscoped
    exact hscoped
  · have hscoped := TemplateOptions.expandValue_scoped hhost hstrict h
      (Value.ofDocument_scoped data) origin
    unfold Template.expandTo at hf
    cases hvalue : t.expandValue origin (.ofDocument data) with
    | error g =>
      rw [hvalue] at hf hscoped
      cases hf
      exact hscoped
    | ok value =>
      rw [hvalue] at hf
      dsimp only at hf
      cases hform : form value with
      | error fault =>
        rw [hform] at hf
        cases hf
      | ok out =>
        rw [hform] at hf
        cases hf
  · obtain ⟨fragments, root, hfragments, hroot, rfl⟩ := Template.compile_eq_ok.mp h
    have hscoped := TemplateOptions.invoke_scoped hhost hstrict hfragments htree hargs origin
    rw [hf] at hscoped
    exact hscoped

/-- An object of a host that refuses every key for a cause. -/
def Value.refusing (cause : String → Cause) : Value :=
  .host default ⟨"Closed", ⟨true, false, false, false⟩⟩ (fun key => .error (.of (cause key)))
    (fun _ => false) [] 0

theorem Value.refusing_scoped {cause : String → Cause}
    (h : ∀ key, (cause key).kind ≠ .undeclaredReference) : (refusing cause).Scoped :=
  ⟨h, trivial⟩

/-- A program with nested loops over one name and an object in its context, and a strict template
with host functions, constants, one of them an object, and a fragment. -/
theorem scoping_sound_of_hosts :
    (∃ p, (⟨[("x", .any)], Environment.standard.functions, [], true⟩ : Environment).compile
        "[1, 2].all(x, [x].exists(x, x > 0)) && x[0].a == 0" = .ok p ∧
      ∀ f, p.eval default (fun _ => some (.list [.refusing .noSuchKey])) = .error (.failed f) →
        f.kind ≠ .undeclaredReference) ∧
    ∃ t, Template.compile
        "\x7b\"a\": \"fragment('pick', data, limit)\", \"b\": \"closed.x\"\x7d"
        ⟨none, false, true, HostFunctions.all,
          [("limit", .ofNat 3), ("closed", .refusing .noSuchKey)],
          [("pick", "\x7b\"m\": \"double_it(first(args)) > limit\"\x7d")]⟩ = .ok t ∧
      ∀ data f, t.expand default data = .error (.eval f) → f.kind ≠ .undeclaredReference := by
  obtain ⟨p, hp⟩ : ∃ p, (⟨[("x", .any)], Environment.standard.functions, [], true⟩ :
      Environment).compile "[1, 2].all(x, [x].exists(x, x > 0)) && x[0].a == 0" = .ok p :=
    failure?_eq_none.mp (by decide +kernel)
  obtain ⟨t, ht⟩ : ∃ t, Template.compile
      "\x7b\"a\": \"fragment('pick', data, limit)\", \"b\": \"closed.x\"\x7d"
      ⟨none, false, true, HostFunctions.all,
        [("limit", .ofNat 3), ("closed", .refusing .noSuchKey)],
        [("pick", "\x7b\"m\": \"double_it(first(args)) > limit\"\x7d")]⟩ = .ok t :=
    failure?_eq_none.mp (by decide +kernel)
  have hobject : (Value.refusing .noSuchKey).Scoped := Value.refusing_scoped fun _ => nofun
  refine ⟨⟨p, hp, (scoping_sound.1 _ _ p rfl (fun name f hget => ?_) hp _ default (fun _ _ => rfl)
    fun _ v hv => ?_).1⟩, t, ht, fun data => (scoping_sound.2 _ _ t rfl ⟨?_, ?_, ?_⟩ ht).1 String
      Value.toJson default data⟩
  · exact .inl (Environment.mem_of_standard (Entries.mem_of_get? hget)).1
  · cases hv
    exact ⟨hobject, trivial⟩
  · exact HostFunctions.all_keep Value.scoped_invariant
  · simp [Value.ofNat, Value.Scoped, hobject]
  · exact nofun

/-- A function of a host that answers every call with an undeclared name. -/
def HostFunctions.lookup : Function :=
  ⟨⟨"lookup", []⟩, fun _ _ _ => .raise (.undeclaredReference "x")⟩

/-- **The assumptions on the host are needed**: an object in the context of a program, or among the
constants of a strict template, may answer that a name is undeclared, and so may a function that a
strict template calls. -/
theorem host_may_answer_undeclared :
    (∃ p f, (⟨[("o", .any)], Environment.standard.functions, [], true⟩ : Environment).compile
        "o.x" = .ok p ∧
      p.eval default (fun _ => some (.refusing .undeclaredReference)) = .error (.failed f) ∧
      f.kind = .undeclaredReference) ∧
    (∃ f, renderWith ⟨none, false, true, [], [("o", .refusing .undeclaredReference)], []⟩
        "\x7b\"k\": \"o.x\"\x7d" default (.object []) = .error (.expand (.eval f)) ∧
      f.kind = .undeclaredReference) ∧
    ∃ f, renderWith ⟨none, false, true, [HostFunctions.lookup], [], []⟩
        "\x7b\"k\": \"lookup()\"\x7d" default (.object []) = .error (.expand (.eval f)) ∧
      f.kind = .undeclaredReference := by
  refine ⟨?_, ⟨⟨.undeclaredReference "x", some ⟨0, 3⟩, none⟩,
      failure?_eq_some.mp (by decide +kernel), rfl⟩,
    ⟨.undeclaredReference "x", some ⟨0, 8⟩, none⟩, failure?_eq_some.mp (by decide +kernel), rfl⟩
  let env : Environment := ⟨[("o", .any)], Environment.standard.functions, [], true⟩
  obtain ⟨p, hp⟩ : ∃ p, env.compile "o.x" = .ok p := failure?_eq_none.mp (by decide +kernel)
  have hfails : (env.compile "o.x").toOption.all (fun p =>
      failure? (p.eval default fun _ => some (.refusing .undeclaredReference)) =
        some (.failed ⟨.undeclaredReference "x", some ⟨0, 3⟩, none⟩)) = true := by
    decide +kernel
  rw [hp] at hfails
  exact ⟨p, _, hp, failure?_eq_some.mp (of_decide_eq_true hfails), rfl⟩

end JsonTemplate
