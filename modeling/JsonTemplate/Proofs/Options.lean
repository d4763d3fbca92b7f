/-
What the options of a template come to: the environments in which the template and its fragments
are compiled, and the names and values that their expressions find.
-/
import JsonTemplate.Proofs.Compilation
import JsonTemplate.Template.Basic

namespace JsonTemplate

namespace Environment

theorem registerAll_eq (fs : List Function) (env : Environment) :
    env.registerAll fs =
      { env with
        functions := env.functions.insertAll (fs.map fun f => (f.signature.name, f)) } := by
  induction fs generalizing env with
  | nil => rfl
  | cons f rest ih => exact ih (env.register f)

theorem declareAll_eq (names : List String) (env : Environment) :
    names.foldl (fun env name => env.declare name .any) env =
      { env with declared := env.declared.insertAll (names.map fun name => (name, .any)) } := by
  induction names generalizing env with
  | nil => rfl
  | cons name rest ih => exact ih (env.declare name .any)

theorem mem_of_registerAll {fs : List Function} {env : Environment} {name : String} {f : Function}
    (h : (env.registerAll fs).functions.get? name = some f) :
    (name, f) ∈ env.functions ∨ f ∈ fs ∧ f.signature.name = name := by
  rw [registerAll_eq] at h
  refine (Entries.mem_insertAll (Entries.mem_of_get? h)).imp_right fun hmem => ?_
  obtain ⟨g, hg, heq⟩ := List.mem_map.mp hmem
  cases heq
  exact ⟨hg, rfl⟩

/-- The functions of the standard environment are the standard ones, by their names. -/
theorem mem_of_standard {name : String} {f : Function} (h : (name, f) ∈ standard.functions) :
    f ∈ Standard.functions ∧ f.signature.name = name := by
  rw [standard, registerAll_eq] at h
  obtain ⟨g, hg, heq⟩ := List.mem_map.mp ((Entries.mem_insertAll h).resolve_left nofun)
  cases heq
  exact ⟨hg, rfl⟩

end Environment

namespace TemplateOptions

/-- The names that the host gives, `ref` among them. -/
def names (o : TemplateOptions) : Entries ValueType :=
  (Environment.standard.declare "ref" .any).declared.insertAll
    (o.constants.keys.map fun name => (name, .any))

/-- What the template and its fragments may call, but for `fragment`. -/
def library (o : TemplateOptions) : Entries Function :=
  ((Environment.standard.register removeProperty).registerAll o.functions).functions

theorem sharedEnvironment_eq (o : TemplateOptions) :
    o.sharedEnvironment = ⟨o.names, o.library, [(ObjectType.record.name, .record)],
      o.strictErrors⟩ := by
  simp only [sharedEnvironment, names, library, Environment.declareAll_eq,
    Environment.registerAll_eq]
  rfl

theorem mem_names {o : TemplateOptions} {name : String} :
    name ∈ o.names.keys ↔ name = "ref" ∨ name ∈ o.constants.keys := by
  have href : (Environment.standard.declare "ref" .any).declared.keys = ["ref"] := rfl
  rw [names, Entries.mem_keys_insertAll, href]
  simp [Entries.keys]

theorem mem_of_library {o : TemplateOptions} {name : String} {f : Function}
    (h : o.library.get? name = some f) :
    (f ∈ Standard.functions ∨ f = removeProperty ∨ f ∈ o.functions) ∧
      f.signature.name = name := by
  rcases Environment.mem_of_registerAll h with h | ⟨h, hname⟩
  · rcases Entries.mem_insert h with h | h
    · exact ⟨.inl (Environment.mem_of_standard h).1, (Environment.mem_of_standard h).2⟩
    · cases h
      exact ⟨.inr (.inl rfl), rfl⟩
  · exact ⟨.inr (.inr h), hname⟩

theorem fragmentEnvironment_eq (o : TemplateOptions) :
    o.fragmentEnvironment = ⟨o.names.insert "args" .list, o.library,
      [(ObjectType.record.name, .record)], o.strictErrors⟩ := by
  rw [fragmentEnvironment, sharedEnvironment_eq]
  rfl

theorem environment_eq (o : TemplateOptions) (fragments : Fragments) :
    o.environment fragments = ⟨o.names.insert "data" .any,
      o.library.insert FragmentCall.functionName
        (FragmentCall.function fragments o.baseActivation o.policy),
      [(ObjectType.record.name, .record)], o.strictErrors⟩ := by
  rw [environment, sharedEnvironment_eq]
  rfl

/-! ## Values of names -/

theorem baseActivation_ref (o : TemplateOptions) :
    o.baseActivation.context "ref" = some (o.reference.getD (.map [])) :=
  Entries.get?_insert_self ..

theorem baseActivation_of_ne {o : TemplateOptions} {name : String} (h : name ≠ "ref") :
    o.baseActivation.context name = o.constants.get? name :=
  Entries.get?_insert_of_ne _ _ h

/-- A name that the host gives has a value. -/
theorem baseActivation_isSome {o : TemplateOptions} {name : String} (h : name ∈ o.names.keys) :
    (o.baseActivation.context name).isSome := by
  by_cases href : name = "ref"
  · rw [href, baseActivation_ref]
    rfl
  · rw [baseActivation_of_ne href, ← Entries.mem_keys_iff]
    exact (mem_names.mp h).resolve_left href

end TemplateOptions

/-! ## Compiling -/

namespace Fragments

/-- Fragments compile one by one. -/
theorem compile_cons {env : Environment} {name text : String}
    {rest : List (String × String)} {fragments : Fragments} :
    compile env ((name, text) :: rest) = .ok fragments ↔ ∃ tree others,
      Tree.compile env text = .ok tree ∧ compile env rest = .ok others ∧
      fragments = (name, tree) :: others := by
  rw [compile]
  cases htree : Tree.compile env text with
  | error fault => simp
  | ok tree =>
    cases hrest : compile env rest with
    | error fault => simp
    | ok others => simp [eq_comm]

theorem compile_get? {env : Environment} : ∀ {texts : List (String × String)}
    {fragments : Fragments}, compile env texts = .ok fragments →
    ∀ {name : String} {tree : Tree}, fragments.get? name = some tree →
      ∃ text, Entries.get? texts name = some text ∧ Tree.compile env text = .ok tree
  | [], _, h, _, _, hget => by cases h; cases hget
  | (key, text) :: rest, _, h, name, tree, hget => by
    obtain ⟨first, others, hfirst, hrest, rfl⟩ := compile_cons.mp h
    simp only [Entries.get?] at hget ⊢
    split at hget
    · rename_i hkey
      cases hget
      exact ⟨text, if_pos hkey, hfirst⟩
    · rename_i hkey
      obtain ⟨text, htext, htree⟩ := compile_get? hrest hget
      exact ⟨text, (if_neg hkey).trans htext, htree⟩

/-- A fragment of compiled fragments is compiled. -/
theorem get?_compile {env : Environment} : ∀ {texts : List (String × String)}
    {fragments : Fragments}, compile env texts = .ok fragments →
    ∀ {name text : String}, Entries.get? texts name = some text →
      ∃ tree, fragments.get? name = some tree ∧ Tree.compile env text = .ok tree
  | [], _, _, _, _, hget => by cases hget
  | (key, _) :: rest, _, h, name, text, hget => by
    obtain ⟨first, others, hfirst, hrest, rfl⟩ := compile_cons.mp h
    simp only [Entries.get?] at hget ⊢
    split at hget
    · rename_i hkey
      cases hget
      exact ⟨first, if_pos hkey, hfirst⟩
    · rename_i hkey
      obtain ⟨tree, htree, hcompile⟩ := get?_compile hrest hget
      exact ⟨tree, (if_neg hkey).trans htree, hcompile⟩

/-- Fragments compile to the same trees where their strings compile to the same expressions. -/
theorem compile_within {env env' : Environment}
    (henv : ∀ source p, env.compile source = .ok p → env'.compile source = .ok (p.within env')) :
    ∀ {texts : List (String × String)} {fragments : Fragments},
      compile env texts = .ok fragments →
      compile env' texts = .ok (Entries.mapValues (Tree.within env') fragments)
  | [], _, h => by cases h; rfl
  | (name, text) :: rest, _, h => by
    obtain ⟨tree, others, htree, hrest, rfl⟩ := compile_cons.mp h
    exact compile_cons.mpr ⟨_, _, Tree.compile_within henv htree, compile_within henv hrest, rfl⟩

end Fragments

/-- The parts of a compiled template. -/
theorem Template.compile_eq_ok {text : String} {o : TemplateOptions} {t : Template} :
    compile text o = .ok t ↔ ∃ fragments root,
      Fragments.compile o.fragmentEnvironment o.fragments = .ok fragments ∧
      Tree.compile (o.environment fragments) text = .ok root ∧
      t = ⟨root, fragments, o.baseActivation, o.policy⟩ := by
  simp only [compile, bind_eq_ok]
  constructor
  · rintro ⟨fragments, hfragments, root, hroot, h⟩
    cases h
    exact ⟨fragments, root, hfragments, hroot, rfl⟩
  · rintro ⟨fragments, root, hfragments, hroot, rfl⟩
    exact ⟨fragments, hfragments, root, hroot, rfl⟩

end JsonTemplate
