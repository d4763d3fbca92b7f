/-
Functions that cannot tell alike values from each other. A function is uniform if it respects every
renaming of objects that leaves the known ones alone: it may make objects and compare them, but
nothing else depends on which ones they are. The standard functions are uniform
(`Standard.functions_uniform`), and so is every function of a template whose host offers uniform
ones (`TemplateOptions.environment_uniform`).
-/
import JsonTemplate.Proofs.Library
import JsonTemplate.Proofs.Options
import JsonTemplate.Proofs.Renaming

namespace JsonTemplate

open Value (Like Faithful)

/-- Which objects of one run stand for which of another: no two are mistaken for each other, and
the known ones, which were there before, stand for themselves. -/
structure Renames (known : Origin → Prop) (R : Origin → Origin → Prop) : Prop where
  faithful : Faithful R
  known : ∀ a, known a → R a a

/-- Objects that stand for themselves, the known ones among them. -/
theorem Renames.self {known known' : Origin → Prop} (h : ∀ a, known a → known' a) :
    Renames known fun a b => a = b ∧ known' a := by
  refine ⟨?_, fun a ha => ⟨rfl, h a ha⟩⟩
  rintro a _ b _ ⟨rfl, -⟩ ⟨rfl, -⟩
  exact Iff.rfl

/-- Where more is known, less is renamed. -/
theorem Renames.weaken {known known' : Origin → Prop} {R : Origin → Origin → Prop}
    (hR : Renames known' R) (h : ∀ a, known a → known' a) : Renames known R :=
  ⟨hR.faithful, fun a ha => hR.known a (h a ha)⟩

/-- A function that is pure up to the identity of the objects it makes. -/
def Function.Uniform (known : Origin → Prop) (f : Function) : Prop :=
  ∀ R, Renames known R → f.Respects R

/-- The objects of the value are known ones. -/
def Value.Known (known : Origin → Prop) (v : Value) : Prop :=
  v.Like (fun a b => a = b ∧ known a) v

section

variable {known : Origin → Prop} {R : Origin → Origin → Prop}

theorem Value.Known.like {v : Value} (h : v.Known known) (hR : Renames known R) : Like R v v :=
  h.mono fun a _ hab => hab.1 ▸ hR.known a hab.2

/-! ## Standard functions -/

namespace Standard

/-- **The standard functions are uniform.** -/
theorem functions_uniform : ∀ f ∈ functions, f.Uniform known := fun f hf R _ =>
  functions_preserve Value.Like.congruence (Places R) f hf

end Standard

/-! ## Typed functions -/

namespace Typed

variable {α β : Type} {P : α → α → Prop} {P' : β → β → Prop}

/-- Alike values are read as data that `P` relates. -/
def Reads (R : Origin → Origin → Prop) (t : Typed α) (P : α → α → Prop) : Prop :=
  ∀ v v', Like R v v' → Option.Rel P (t.read? v) (t.read? v')

theorem read_like {t : Typed α} (ht : t.Reads R P) (role name : String) {v v' : Option Value}
    (h : Option.Rel (Like R) v v') : Agree P (t.read role name v) (t.read role name v') := by
  cases h with
  | none => exact .error _
  | @some a b hv =>
    have hread := ht a b hv
    rw [read, read, Value.Like.congruence.typeName hv]
    generalize t.read? a = x, t.read? b = x' at hread ⊢
    cases hread with
    | none => exact .error _
    | some ha => exact .ok ha

theorem unary_respects {t : Typed α} (ht : t.Reads R P) {name parameter : String}
    {body : α → Outcome Value} (h : ∀ a a', P a a' → Agree (Like R) (body a) (body a')) :
    (t.unary name parameter body).Respects R := by
  intro _ _ _ _ args args' _ _ hargs
  exact (read_like ht _ _ (Value.forall₂_getElem? hargs 0)).bind h

theorem onReceiver_respects {t : Typed α} {u : Typed β} (ht : t.Reads R P) (hu : u.Reads R P')
    {name receiver parameter : String} {body : α → β → Outcome Value}
    (h : ∀ a a' b b', P a a' → P' b b' → Agree (Like R) (body a b) (body a' b')) :
    (t.onReceiver u name receiver parameter body).Respects R := by
  intro _ _ _ _ args args' _ hreceiver hargs
  exact (read_like ht _ _ hreceiver).bind fun _ _ ha =>
    (read_like hu _ _ (Value.forall₂_getElem? hargs 0)).bind fun _ _ hb => h _ _ _ _ ha hb

theorem string_reads : string.Reads R Eq := by
  intro _ _ h
  cases h with
  | string s => exact .some rfl
  | _ => exact .none

theorem number_reads : number.Reads R Eq := by
  intro _ _ h
  cases h with
  | number n => exact .some rfl
  | _ => exact .none

theorem bool_reads : bool.Reads R Eq := by
  intro _ _ h
  cases h with
  | bool b => exact .some rfl
  | _ => exact .none

theorem list_reads : list.Reads R (List.Forall₂ (Like R)) := by
  intro _ _ h
  cases h with
  | list hitems => exact .some hitems
  | _ => exact .none

theorem any_reads : any.Reads R (Like R) := fun _ _ h => .some h

end Typed

/-- The functions that hosts like to offer are uniform. -/
theorem HostFunctions.all_uniform : ∀ f ∈ all, f.Uniform known := by
  have hfirst (R) : first.Respects R := Typed.unary_respects Typed.list_reads fun _ _ hitems => by
    cases hitems with
    | nil => exact .error _
    | cons hv _ => exact .ok hv
  have hdescribe (R) : describe.Respects R := Typed.unary_respects Typed.any_reads fun _ _ hv => by
    rw [Value.Like.congruence.typeName hv, Value.Like.congruence.display hv]
    exact .ok (.string _)
  simp only [all, List.forall_mem_cons]
  exact ⟨fun R _ => hfirst R,
    fun _ _ => Typed.unary_respects Typed.string_reads fun _ _ h => h ▸ .ok (.string _),
    fun _ _ => Typed.unary_respects Typed.number_reads fun _ _ h => h ▸ .ok (.number _),
    fun _ _ => Typed.unary_respects Typed.bool_reads fun _ _ h => h ▸ .ok (.string _),
    fun _ _ => Typed.onReceiver_respects Typed.string_reads Typed.number_reads
      fun _ _ _ _ h h' => h ▸ h' ▸ .ok (.string _),
    fun R _ => hdescribe R, List.forall_mem_nil _⟩

/-! ## Expansions -/

namespace Tree

variable {policy : ErrorPolicy} {context context' : Context}

theorem settle_like {x y : Outcome Value} (h : Agree (Like R) x y) :
    Agree (Option.Rel (Like R)) (settle policy x) (settle policy y) := by
  cases h with
  | ok hv => exact .ok (.some hv)
  | error i =>
    cases i with
    | removed => exact .ok .none
    | failed f =>
      simp only [settle]
      split
      · exact .error f
      · exact .ok .none

/-- The expressions of a tree find alike values in two contexts, and call functions that respect
what stands for what. -/
def Corresponds (R : Origin → Origin → Prop) (context context' : Context) (leaves : List Leaf) :
    Prop :=
  ∀ leaf ∈ leaves, JsonTemplate.Corresponds R leaf.program.environment context context'
    leaf.program.expr.calls leaf.program.expr.free

mutual

theorem expandNode_like : ∀ (t : Tree) {a b : Origin}, Places R a b →
    Corresponds R context context' (t.leaves a) →
    Agree (Option.Rel (Like R)) (t.expandNode policy context a) (t.expandNode policy context' b)
  | literal s, _, _, _, _ => by
    rw [expandNode, expandNode]
    cases s with
    | null => exact .ok (.some .null)
    | bool b => exact .ok (.some (.bool b))
    | number n => exact .ok (.some (.number n))
  | expression program, a, b, hab, h =>
    settle_like (program.expr.eval_like hab (h ⟨a, program⟩ (by simp [leaves])))
  | object entries, _, _, hab, h => by
    rw [expandNode, expandNode]
    exact (expandEntries_like entries 0 hab h).bind fun _ _ hout =>
      .ok (.some (.record hab.self hout.ofPairs))
  | list items, _, _, hab, h => by
    rw [expandNode, expandNode]
    exact (expandItems_like items 0 hab h).bind fun _ _ hout => .ok (.some (.list hout))

theorem expandEntries_like : ∀ (entries : List (String × Tree)) {a b : Origin} (part : Nat),
    Places R a b → Corresponds R context context' (leavesOfEntries entries a part) →
    Agree (Entries.Related (Like R)) (expandEntries policy context entries a part)
      (expandEntries policy context' entries b part)
  | [], _, _, _, _, _ => .ok .nil
  | (key, t) :: rest, a, b, part, hab, h => by
    rw [leavesOfEntries, Corresponds, List.forall_mem_append] at h
    rw [expandEntries, expandEntries]
    refine (expandNode_like t (hab.child part) h.1).bind fun first first' hfirst =>
      (expandEntries_like rest (part + 1) hab h.2).bind fun others others' hothers => ?_
    cases hfirst with
    | none => exact .ok hothers
    | some hv => exact .ok (.cons key hv hothers)

theorem expandItems_like : ∀ (items : List Tree) {a b : Origin} (part : Nat),
    Places R a b → Corresponds R context context' (leavesOfItems items a part) →
    Agree (List.Forall₂ (Like R)) (expandItems policy context items a part)
      (expandItems policy context' items b part)
  | [], _, _, _, _, _ => .ok .nil
  | t :: rest, a, b, part, hab, h => by
    rw [leavesOfItems, Corresponds, List.forall_mem_append] at h
    rw [expandItems, expandItems]
    refine (expandNode_like t (hab.child part) h.1).bind fun first first' hfirst =>
      (expandItems_like rest (part + 1) hab h.2).bind fun others others' hothers => ?_
    cases hfirst with
    | none => exact .ok hothers
    | some hv => exact .ok (.cons hv hothers)

end

/-- Expansions of one tree agree where its expressions correspond. -/
theorem expand_like {t : Tree} {a b : Origin} (hab : Places R a b)
    (h : Corresponds R context context' (t.leaves a)) :
    Agree (Like R) (t.expand policy context a) (t.expand policy context' b) := by
  refine (expandNode_like t hab h).bind fun added added' hadded => ?_
  cases hadded with
  | none => exact .ok .null
  | some hv => exact .ok hv

end Tree

/-! ## Fragments -/

namespace FragmentCall

variable {fragments : Fragments} {base : Activation} {policy : ErrorPolicy}

theorem invokeEach_like {tree : Tree}
    (h : ∀ a b args args', Places R a b → List.Forall₂ (Like R) args args' →
      Agree (Like R) (invoke base policy tree a args) (invoke base policy tree b args'))
    {args args' : List Value} (hargs : List.Forall₂ (Like R) args args') {a b : Origin}
    (hab : Places R a b) {items items' : List Value} (hitems : List.Forall₂ (Like R) items items')
    (part : Nat) : Agree (List.Forall₂ (Like R)) (invokeEach base policy tree a args part items)
      (invokeEach base policy tree b args' part items') := by
  induction hitems generalizing part with
  | nil => exact .ok .nil
  | cons hitem _ ih =>
    rw [invokeEach, invokeEach]
    exact (h _ _ _ _ (hab.child part) (.cons hitem hargs)).bind fun _ _ hv =>
      (ih (part + 1)).bind fun _ _ hout => .ok (.cons hv hout)

/-- `fragment` respects what the expansions of the fragments respect. -/
theorem function_respects
    (h : ∀ name tree, fragments.get? name = some tree → ∀ a b args args', Places R a b →
      List.Forall₂ (Like R) args args' →
        Agree (Like R) (invoke base policy tree a args) (invoke base policy tree b args')) :
    (function fragments base policy).Respects R := by
  intro a b receiver receiver' args args' hab hreceiver hargs
  show Agree (Like R) (call fragments base policy a receiver args)
    (call fragments base policy b receiver' args')
  cases hargs with
  | nil => exact .error _
  | cons hname hrest =>
    cases hname with
    | string name =>
      simp only [call]
      cases htree : fragments.get? name with
      | none => exact .error _
      | some tree =>
        cases hreceiver with
        | none => exact h name tree htree a b _ _ hab hrest
        | some hv =>
          cases hv with
          | list hitems =>
            exact (invokeEach_like (h name tree htree) hrest hab hitems 0).bind fun _ _ hout =>
              .ok (.list hout)
          | _ => exact .error _
    | _ => exact .error _

end FragmentCall

/-! ## Options -/

/-- The host offers uniform functions and known objects only. -/
structure TemplateOptions.Uniform (o : TemplateOptions) (known : Origin → Prop) : Prop where
  functions : ∀ f ∈ o.functions, f.Uniform known
  constants : ∀ name v, o.constants.get? name = some v → v.Known known
  reference : ∀ v, o.reference = some v → v.Known known

namespace TemplateOptions

variable {o : TemplateOptions} {fragments : Fragments}

theorem library_uniform (h : o.Uniform known) {name : String} {f : Function}
    (hf : o.library.get? name = some f) : f.Uniform known := by
  rcases (mem_of_library hf).1 with hf | rfl | hf
  · exact Standard.functions_uniform f hf
  · exact fun _ _ _ _ _ _ _ _ _ _ _ => .error _
  · exact h.functions f hf

/-- What the host gives by name has known objects. -/
theorem Uniform.base (h : o.Uniform known) {name : String} {v : Value}
    (hv : o.baseActivation.context name = some v) : v.Known known := by
  by_cases href : name = "ref"
  · rw [href, baseActivation_ref] at hv
    cases hreference : o.reference with
    | none =>
      rw [hreference] at hv
      cases hv
      exact .map .nil
    | some w =>
      rw [hreference] at hv
      cases hv
      exact h.reference w hreference
  · rw [baseActivation_of_ne href] at hv
    exact h.constants name v hv

/-- Names find alike values over what the host gives. -/
theorem Uniform.bind (h : o.Uniform known) (hR : Renames known R) {x name : String} {v v' : Value}
    (hv : x = name → Like R v v') :
    Option.Rel (Like R) ((o.baseActivation.bind name v).context x)
      ((o.baseActivation.bind name v').context x) := by
  rw [Activation.context_bind, Activation.context_bind, Context.bind, Context.bind]
  by_cases hx : x = name
  · rw [if_pos hx, if_pos hx]
    exact .some (hv hx)
  · rw [if_neg hx, if_neg hx]
    cases hbase : o.baseActivation.context x with
    | none => exact .none
    | some w => exact .some ((h.base hbase).like hR)

/-- The expressions of a fragment correspond where its arguments are alike. -/
theorem fragment_corresponds (h : o.Uniform known) (hR : Renames known R)
    (hfragments : Fragments.compile o.fragmentEnvironment o.fragments = .ok fragments)
    {name : String} {tree : Tree} (htree : fragments.get? name = some tree)
    {args args' : List Value} (hargs : List.Forall₂ (Like R) args args') (origin : Origin) :
    Tree.Corresponds R (o.baseActivation.bind "args" (.list args)).context
      (o.baseActivation.bind "args" (.list args')).context (tree.leaves origin) := by
  obtain ⟨text, -, hcompile⟩ := Fragments.compile_get? hfragments htree
  refine fun leaf hleaf => ⟨hR.faithful, fun name _ f hf => ?_,
    fun x _ => h.bind hR fun _ => .list hargs⟩
  obtain ⟨source, hsource⟩ := Tree.compile_leaves hcompile hleaf
  obtain ⟨_, _, _, hprogram⟩ := Environment.compile_eq_ok.mp hsource
  rw [hprogram, fragmentEnvironment_eq] at hf
  exact library_uniform h hf R hR

/-- An expansion of a fragment respects every renaming that leaves the known objects alone. -/
theorem invoke_like (h : o.Uniform known) (hR : Renames known R)
    (hfragments : Fragments.compile o.fragmentEnvironment o.fragments = .ok fragments)
    {name : String} {tree : Tree} (htree : fragments.get? name = some tree) {a b : Origin}
    {args args' : List Value} (hab : Places R a b) (hargs : List.Forall₂ (Like R) args args') :
    Agree (Like R) (FragmentCall.invoke o.baseActivation o.policy tree a args)
      (FragmentCall.invoke o.baseActivation o.policy tree b args') :=
  (Tree.expand_like hab (fragment_corresponds h hR hfragments htree hargs a)).ofResult

/-- **Every function of a template is uniform, `fragment` included.** -/
theorem environment_uniform (h : o.Uniform known)
    (hfragments : Fragments.compile o.fragmentEnvironment o.fragments = .ok fragments)
    {name : String} {f : Function} (hf : (o.environment fragments).functions.get? name = some f) :
    f.Uniform known := by
  rw [environment_eq] at hf
  by_cases hname : name = FragmentCall.functionName
  · rw [hname, Entries.get?_insert_self] at hf
    cases hf
    exact fun R hR => FragmentCall.function_respects fun _ _ htree _ _ _ _ hab hargs =>
      invoke_like h hR hfragments htree hab hargs
  · rw [Entries.get?_insert_of_ne _ _ hname] at hf
    exact library_uniform h hf

end TemplateOptions

end

end JsonTemplate
