/-
The functions that the engine brings along. What is closed under operations on values (`Closed`)
is kept by the standard functions (`Standard.functions_keep`), by the expansion of a
tree whose expressions keep it (`Tree.expand_keeps`) and so by `fragment`
(`FragmentCall.function_keeps`).
-/
import JsonTemplate.Function.Typed
import JsonTemplate.Template.Basic
import JsonTemplate.Proofs.Compilation
import JsonTemplate.Proofs.Invariant

namespace JsonTemplate

/-- A function whose calls keep an invariant. -/
def Function.Keeps (P : Value → Prop) (Q : Interrupt → Prop) (f : Function) : Prop :=
  ∀ origin receiver args, (∀ v ∈ receiver, P v) → (∀ v ∈ args, P v) →
    Satisfies P Q (f.call origin receiver args)

variable {P : Value → Prop} {Q : Interrupt → Prop}

/-! ## Environments -/

namespace Environment

/-- A call asks an environment for its functions only. -/
theorem call_congr {env env' : Environment} (h : env'.functions = env.functions) (name : String) :
    env'.call name = env.call name := by
  funext origin receiver args
  rw [call, call, h]

/-- A call keeps what its function keeps, if being refused keeps it too. -/
theorem call_keeps {env : Environment} {name : String}
    (hrefused : ∀ values : List Value, (∀ v ∈ values, P v) →
      Q (.failed (.of (.noSuchOverload name (values.map Value.typeName)))))
    (h : ∀ f, env.functions.get? name = some f → f.Keeps P Q) (origin : Origin)
    {receiver : Option Value} {args : List Value} (hreceiver : ∀ v ∈ receiver, P v)
    (hargs : ∀ v ∈ args, P v) : Satisfies P Q (env.call name origin receiver args) := by
  have hvalues : ∀ v ∈ receiver.toList ++ args, P v := by
    intro v hv
    rcases List.mem_append.mp hv with hv | hv
    · exact hreceiver v (Option.mem_toList.mp hv)
    · exact hargs v hv
  unfold call
  split
  · rename_i f hf
    split
    · exact h f hf origin receiver args hreceiver hargs
    · exact hrefused _ hvalues
  · exact hrefused _ hvalues

end Environment

/-! ## Standard functions -/

namespace Standard

/-- What a body keeps, wherever it is called. -/
def Body.Keeps (P : Value → Prop) (Q : Interrupt → Prop) (body : Body) : Prop :=
  ∀ receiver args, (∀ v ∈ receiver, P v) → (∀ v ∈ args, P v) → Satisfies P Q (body receiver args)

section

variable (inv : Closed P Q)

include inv

theorem operand_keeps {receiver : Option Value} {args : List Value}
    (hreceiver : ∀ v ∈ receiver, P v) (hargs : ∀ v ∈ args, P v) : P (operand receiver args) := by
  cases receiver with
  | some v => exact hreceiver v rfl
  | none =>
    cases args with
    | nil => exact inv.literal .null
    | cons v _ => exact hargs v List.mem_cons_self

/-- A value that is not what was expected; one that is not there counts as null. -/
theorem unexpected_keeps {α : Type} {R : α → Prop} {expected : String}
    (h : expected ∈ Cause.expectations) {v : Value} (hv : P v) :
    Satisfies R Q (Outcome.raise (.unexpected expected v.typeName)) :=
  inv.raise (.unexpected h hv)

theorem receiverString_keeps {receiver : Option Value} (h : ∀ v ∈ receiver, P v) :
    Satisfies (fun _ => True) Q (receiverString receiver) := by
  unfold receiverString
  split
  · trivial
  · exact unexpected_keeps inv (by decide) (h _ rfl)
  · exact unexpected_keeps inv (by decide) (inv.literal .null)

theorem receiverList_keeps {receiver : Option Value} (h : ∀ v ∈ receiver, P v) :
    Satisfies (fun items => ∀ v ∈ items, P v) Q (receiverList receiver) := by
  unfold receiverList
  split
  · exact (inv.list _).mp (h _ rfl)
  · exact unexpected_keeps inv (by decide) (h _ rfl)
  · exact unexpected_keeps inv (by decide) (inv.literal .null)

theorem stringArg_keeps {args : List Value} (h : ∀ v ∈ args, P v) (position : Nat) :
    Satisfies (fun _ => True) Q (stringArg args position) := by
  unfold stringArg
  split
  · trivial
  · rename_i hget
    exact unexpected_keeps inv (by decide) (h _ (List.mem_of_getElem? hget))
  · exact inv.raise (.missingPosition position)

theorem position_keeps {v : Option Value} (h : ∀ a ∈ v, P a) :
    Satisfies (fun _ => True) Q (position v) := by
  unfold position
  split
  · split
    · trivial
    · exact unexpected_keeps inv (by decide) (h _ rfl)
  · exact unexpected_keeps inv (by decide) (h _ rfl)
  · exact unexpected_keeps inv (by decide) (inv.literal .null)

theorem size_keeps : Body.Keeps P Q size := by
  intro receiver args hreceiver hargs
  have hoperand := operand_keeps inv hreceiver hargs
  unfold size
  split
  · exact inv.number _
  · exact inv.number _
  · exact inv.number _
  · split
    · exact inv.number _
    · exact inv.raise (.refused [operand receiver args] (by decide)
        (by simpa using hoperand))

/-- A value that cannot be converted, whatever is known of its text. -/
theorem conversion_keeps {v : Value} (hv : P v) (target : String) (beneath : Option String)
    (h : target ∈ Cause.targets) : Q (.failed ⟨.conversion v.typeName target, none, beneath⟩) :=
  inv.failed _ _ (.conversion hv h)

theorem string_keeps : Body.Keeps P Q string := by
  intro receiver args hreceiver hargs
  have hoperand := operand_keeps inv hreceiver hargs
  unfold string
  split
  · rename_i h
    exact conversion_keeps inv (h ▸ hoperand) "string" none (by decide)
  · rename_i h
    exact conversion_keeps inv (h ▸ hoperand) "string" none (by decide)
  · exact inv.string _

theorem int_keeps : Body.Keeps P Q int := by
  intro receiver args hreceiver hargs
  have hoperand := operand_keeps inv hreceiver hargs
  unfold int
  split
  · rename_i h
    split
    · exact inv.number _
    · exact conversion_keeps inv (h ▸ hoperand) "int" none (by decide)
  · rename_i h
    split
    · exact inv.number _
    · exact conversion_keeps inv (h ▸ hoperand) "int" (some _) (by decide)
  · exact conversion_keeps inv hoperand "int" none (by decide)

theorem double_keeps : Body.Keeps P Q double := by
  intro receiver args hreceiver hargs
  have hoperand := operand_keeps inv hreceiver hargs
  unfold double
  split
  · exact inv.number _
  · rename_i h
    split
    · exact inv.number _
    · exact conversion_keeps inv (h ▸ hoperand) "double" (some _) (by decide)
  · exact conversion_keeps inv hoperand "double" none (by decide)

theorem bool_keeps : Body.Keeps P Q bool := by
  intro receiver args hreceiver hargs
  have hoperand := operand_keeps inv hreceiver hargs
  unfold bool
  split
  · exact inv.bool _
  · rename_i h
    split
    · exact inv.bool _
    · split
      · exact inv.bool _
      · exact conversion_keeps inv (h ▸ hoperand) "bool" none (by decide)
  · exact conversion_keeps inv hoperand "bool" none (by decide)

theorem type_keeps : Body.Keeps P Q type := fun _ _ _ _ => inv.string _

theorem dyn_keeps : Body.Keeps P Q dyn := fun _ _ hreceiver hargs =>
  operand_keeps inv hreceiver hargs

/-- A function that reads a string off its receiver and one off its first argument. -/
theorem twoStrings_keeps {k : String → String → Value} (h : ∀ s t, P (k s t)) :
    Body.Keeps P Q fun receiver args => do
      let s ← receiverString receiver
      return k s (← stringArg args 0) := by
  intro receiver args hreceiver hargs
  exact (receiverString_keeps inv hreceiver).bind fun s _ =>
    (stringArg_keeps inv hargs 0).bind fun t _ => h s t

theorem contains_keeps : Body.Keeps P Q contains := twoStrings_keeps inv fun _ _ => inv.bool _

theorem startsWith_keeps : Body.Keeps P Q startsWith := twoStrings_keeps inv fun _ _ => inv.bool _

theorem endsWith_keeps : Body.Keeps P Q endsWith := twoStrings_keeps inv fun _ _ => inv.bool _

theorem split_keeps : Body.Keeps P Q split := twoStrings_keeps inv fun _ _ => by
  refine (inv.list _).mpr fun v hv => ?_
  obtain ⟨piece, -, rfl⟩ := List.mem_map.mp hv
  exact inv.string _

theorem mapChars_keeps (f : Char → Char) : Body.Keeps P Q (mapChars f) := by
  intro receiver _ hreceiver _
  exact (receiverString_keeps inv hreceiver).bind fun _ _ => inv.string _

theorem trim_keeps : Body.Keeps P Q trim := by
  intro receiver _ hreceiver _
  exact (receiverString_keeps inv hreceiver).bind fun _ _ => inv.string _

theorem stringItems_keep : ∀ {items : List Value}, (∀ v ∈ items, P v) →
    Satisfies (fun _ => True) Q (items.mapM stringItem)
  | [], _ => trivial
  | item :: rest, h => by
    rw [List.forall_mem_cons] at h
    have hitem : Satisfies (fun _ => True) Q (stringItem item) := by
      unfold stringItem
      split
      · trivial
      · exact unexpected_keeps inv (by decide) h.1
    rw [List.mapM_cons]
    exact hitem.bind fun _ _ => (stringItems_keep h.2).bind fun _ _ => trivial

theorem join_keeps : Body.Keeps P Q join := by
  intro receiver args hreceiver hargs
  refine (receiverList_keeps inv hreceiver).bind fun items hitems => ?_
  have hjoined (separator : String) : Satisfies P Q
      (do return .string (separator.intercalate (← items.mapM stringItem))) :=
    (stringItems_keep inv hitems).bind fun _ _ => inv.string _
  dsimp only
  split
  · exact hjoined ""
  · exact (stringArg_keeps inv hargs 0).bind fun separator _ => hjoined separator

theorem slice_keeps : Body.Keeps P Q slice := by
  intro receiver args hreceiver hargs
  have hposition (n : Nat) : Satisfies (fun _ => True) Q (position args[n]?) :=
    position_keeps inv fun v hv => hargs v (List.mem_of_getElem? hv)
  refine (receiverList_keeps inv hreceiver).bind fun items hitems =>
    (hposition 0).bind fun start _ => (hposition 1).bind fun stop _ => ?_
  split
  · exact (inv.list _).mpr fun v hv => hitems v (List.mem_of_mem_take (List.mem_of_mem_drop hv))
  · exact inv.raise (.sliceOutOfRange ..)

theorem flattenItems_keep : ∀ (depth : Nat) {items : List Value}, (∀ v ∈ items, P v) →
    ∀ v ∈ flattenItems depth items, P v
  | 0, _, h => h
  | depth + 1, items, h => by
    intro v hv
    rw [flattenItems, List.mem_flatMap] at hv
    obtain ⟨item, hitem, hv⟩ := hv
    have hp := h item hitem
    split at hv
    · exact flattenItems_keep depth ((inv.list _).mp hp) v hv
    · exact List.mem_singleton.mp hv ▸ hp

theorem flatten_keeps : Body.Keeps P Q flatten := by
  intro receiver args hreceiver hargs
  refine (receiverList_keeps inv hreceiver).bind fun items hitems => ?_
  have hflat (depth : Nat) : P (.list (flattenItems depth items)) :=
    (inv.list _).mpr (flattenItems_keep inv depth hitems)
  dsimp only
  split
  · rename_i v hget
    have hv := hargs v (List.mem_of_getElem? hget)
    exact (position_keeps inv (by simpa using hv)).bind fun depth _ => hflat depth
  · exact hflat 1

omit inv in
theorem onAny_keeps {name : String} {body : Body} (h : Body.Keeps P Q body) :
    (onAny name body).Keeps P Q := fun _ => h

omit inv in
theorem onReceiver_keeps {name : String} {type : ValueType} {parameters : List Parameter}
    {body : Body} (h : Body.Keeps P Q body) : (onReceiver name type parameters body).Keeps P Q :=
  fun _ => h

/-- **The standard functions keep every invariant.** -/
theorem functions_keep : ∀ f ∈ functions, f.Keeps P Q := by
  simp only [functions, List.forall_mem_cons]
  exact ⟨onAny_keeps (size_keeps inv), onAny_keeps (string_keeps inv), onAny_keeps (int_keeps inv),
    onAny_keeps (double_keeps inv), onAny_keeps (bool_keeps inv), onAny_keeps (type_keeps inv),
    onAny_keeps (dyn_keeps inv), onReceiver_keeps (contains_keeps inv),
    onReceiver_keeps (startsWith_keeps inv), onReceiver_keeps (endsWith_keeps inv),
    onReceiver_keeps (split_keeps inv), onReceiver_keeps (mapChars_keeps inv _),
    onReceiver_keeps (mapChars_keeps inv _), onReceiver_keeps (trim_keeps inv),
    onReceiver_keeps (join_keeps inv), onReceiver_keeps (slice_keeps inv),
    onReceiver_keeps (flatten_keeps inv), List.forall_mem_nil _⟩

end

end Standard

/-! ## Typed functions -/

namespace Typed

section

variable {α β : Type} (inv : Closed P Q)

include inv

/-- An argument that is read stands for a value that was given. -/
theorem read_keeps {t : Typed α} (ht : t.name ∈ Cause.expectations) {role name : String}
    (hrole : role ∈ ["argument", "receiver"]) (hname : name ∈ Cause.parameters)
    {v : Option Value} (h : ∀ a ∈ v, P a) :
    Satisfies (fun a => ∃ v, P v ∧ t.read? v = some a) Q (t.read role name v) := by
  unfold read
  split
  · split
    · rename_i hread
      exact ⟨_, h _ rfl, hread⟩
    · exact inv.raise (.unexpected ht (h _ rfl))
  · exact inv.raise (.missingParameter hrole hname)

theorem unary_keeps {t : Typed α} {name parameter : String} {body : α → Outcome Value}
    (ht : t.name ∈ Cause.expectations) (hparameter : parameter ∈ Cause.parameters)
    (h : ∀ v a, P v → t.read? v = some a → Satisfies P Q (body a)) :
    (t.unary name parameter body).Keeps P Q := by
  intro _ _ args _ hargs
  have harg := read_keeps inv ht (by decide : "argument" ∈ ["argument", "receiver"]) hparameter
    fun v hv => hargs v (List.mem_of_getElem? (i := 0) hv)
  refine harg.bind fun a hread => ?_
  obtain ⟨v, hv, hread⟩ := hread
  exact h v a hv hread

theorem onReceiver_keeps {t : Typed α} {u : Typed β} {name receiver parameter : String}
    {body : α → β → Outcome Value} (ht : t.name ∈ Cause.expectations)
    (hu : u.name ∈ Cause.expectations) (hself : receiver ∈ Cause.parameters)
    (hparameter : parameter ∈ Cause.parameters) (h : ∀ a b, Satisfies P Q (body a b)) :
    (t.onReceiver u name receiver parameter body).Keeps P Q := by
  intro _ given args hreceiver hargs
  have hgiven := read_keeps inv ht (by decide : "receiver" ∈ ["argument", "receiver"]) hself
    hreceiver
  have harg := read_keeps inv hu (by decide : "argument" ∈ ["argument", "receiver"]) hparameter
    fun v hv => hargs v (List.mem_of_getElem? (i := 0) hv)
  exact hgiven.bind fun a _ => harg.bind fun b _ => h a b

end

end Typed

/-- The functions that hosts like to offer keep every invariant. -/
theorem HostFunctions.all_keep (inv : Invariant P Q) : ∀ f ∈ all, f.Keeps P Q := by
  have closed := inv.toClosed
  have hfirst : first.Keeps P Q := by
    refine Typed.unary_keeps closed (by decide) (by decide) fun v items hv hread => ?_
    cases v <;> cases hread
    cases items with
    | nil => exact inv.raise .emptyList
    | cons item rest => exact (inv.list _).mp hv item List.mem_cons_self
  simp only [all, List.forall_mem_cons]
  exact ⟨hfirst, Typed.unary_keeps closed (by decide) (by decide) fun _ _ _ _ => inv.string _,
    Typed.unary_keeps closed (by decide) (by decide) fun _ _ _ _ => inv.number _,
    Typed.unary_keeps closed (by decide) (by decide) fun _ _ _ _ => inv.string _,
    Typed.onReceiver_keeps closed (by decide) (by decide) (by decide) (by decide)
      fun _ _ => inv.string _,
    Typed.unary_keeps closed (by decide) (by decide) fun _ _ _ _ => inv.string _,
    List.forall_mem_nil _⟩

/-! ## Expansions -/

namespace Tree

variable {policy : ErrorPolicy} {context : Context}

theorem settle_keeps {outcome : Outcome Value} (h : Satisfies P Q outcome) :
    Satisfies (fun added => ∀ v ∈ added, P v) (fun f => Q (.failed f)) (settle policy outcome) := by
  rcases outcome with (_ | f) | v
  · exact nofun
  · by_cases hf : policy.raises f = true
    · simp only [settle, if_pos hf]
      exact h
    · simpa [settle, hf] using nofun
  · simpa [settle, Satisfies] using h

theorem scalar_keeps (inv : Closed P Q) (s : Scalar) : P s.toValue := by
  cases s with
  | null => exact inv.literal .null
  | bool b => exact inv.bool b
  | number n => exact inv.number n

mutual

theorem expandNode_keeps (inv : Closed P Q) : ∀ {t : Tree} {origin : Origin},
    (∀ leaf ∈ t.leaves origin, Satisfies P Q (leaf.outcome context)) →
    Satisfies (fun added => ∀ v ∈ added, P v) (fun f => Q (.failed f))
      (t.expandNode policy context origin)
  | literal s, _, _ => by simpa [expandNode, Satisfies] using scalar_keeps inv s
  | expression program, origin, h => settle_keeps (h ⟨origin, program⟩ (by simp [leaves]))
  | object entries, origin, h => by
    rw [expandNode]
    refine (expandEntries_keeps inv h).bind fun out hout => ?_
    simpa [Satisfies] using inv.record origin out hout
  | list items, origin, h => by
    rw [expandNode]
    refine (expandItems_keeps inv h).bind fun out hout => ?_
    simpa [Satisfies] using (inv.list out).mpr hout

theorem expandEntries_keeps (inv : Closed P Q) : ∀ {entries : List (String × Tree)}
    {origin : Origin} {part : Nat},
    (∀ leaf ∈ leavesOfEntries entries origin part, Satisfies P Q (leaf.outcome context)) →
    Satisfies (fun out => ∀ pair ∈ out, P pair.2) (fun f => Q (.failed f))
      (expandEntries policy context entries origin part)
  | [], _, _, _ => nofun
  | (key, t) :: rest, origin, part, h => by
    rw [leavesOfEntries, List.forall_mem_append] at h
    rw [expandEntries]
    refine (expandNode_keeps inv h.1).bind fun first hfirst =>
      (expandEntries_keeps inv h.2).bind fun others hothers => ?_
    cases first with
    | none => exact hothers
    | some v => exact List.forall_mem_cons.mpr ⟨hfirst v rfl, hothers⟩

theorem expandItems_keeps (inv : Closed P Q) : ∀ {items : List Tree} {origin : Origin}
    {part : Nat},
    (∀ leaf ∈ leavesOfItems items origin part, Satisfies P Q (leaf.outcome context)) →
    Satisfies (fun out => ∀ v ∈ out, P v) (fun f => Q (.failed f))
      (expandItems policy context items origin part)
  | [], _, _, _ => nofun
  | t :: rest, origin, part, h => by
    rw [leavesOfItems, List.forall_mem_append] at h
    rw [expandItems]
    refine (expandNode_keeps inv h.1).bind fun first hfirst =>
      (expandItems_keeps inv h.2).bind fun others hothers => ?_
    cases first with
    | none => exact hothers
    | some v => exact List.forall_mem_cons.mpr ⟨hfirst v rfl, hothers⟩

end

/-- An expansion keeps what the expressions of the tree keep. -/
theorem expand_keeps (inv : Closed P Q) {t : Tree} {origin : Origin}
    (h : ∀ leaf ∈ t.leaves origin, Satisfies P Q (leaf.outcome context)) :
    Satisfies P (fun f => Q (.failed f)) (t.expand policy context origin) := by
  refine (expandNode_keeps inv h).bind fun added hadded => ?_
  cases added with
  | none => exact inv.literal .null
  | some v => exact hadded v rfl

end Tree

/-! ## Fragments -/

namespace FragmentCall

variable {fragments : Fragments} {base : Activation} {policy : ErrorPolicy}

theorem invokeEach_keeps {tree : Tree} {args : List Value}
    (h : ∀ origin args, (∀ v ∈ args, P v) → Satisfies P Q (invoke base policy tree origin args))
    (hargs : ∀ v ∈ args, P v) (origin : Origin) : ∀ {items : List Value} (part : Nat),
    (∀ v ∈ items, P v) →
      Satisfies (fun out => ∀ v ∈ out, P v) Q (invokeEach base policy tree origin args part items)
  | [], _, _ => nofun
  | item :: rest, part, hitems => by
    rw [List.forall_mem_cons] at hitems
    have hfirst := h (origin.child part) (item :: args)
      (List.forall_mem_cons.mpr ⟨hitems.1, hargs⟩)
    rw [invokeEach]
    exact hfirst.bind fun _ hv => (invokeEach_keeps h hargs origin (part + 1) hitems.2).bind
      fun _ hout => List.forall_mem_cons.mpr ⟨hv, hout⟩

/-- `fragment` keeps what the expansions of the fragments keep. -/
theorem function_keeps (inv : Closed P Q)
    (h : ∀ name tree, fragments.get? name = some tree → ∀ origin args, (∀ v ∈ args, P v) →
      Satisfies P Q (invoke base policy tree origin args)) :
    (function fragments base policy).Keeps P Q := by
  intro origin receiver args hreceiver hargs
  change Satisfies P Q (call fragments base policy origin receiver args)
  unfold call
  split
  · exact inv.raise .noFragmentName
  · rw [List.forall_mem_cons] at hargs
    split
    · exact inv.raise (.fragmentNotFound _)
    · rename_i tree htree
      split
      · exact h _ tree htree origin _ hargs.2
      · exact (invokeEach_keeps (h _ tree htree) hargs.2 origin 0
          ((inv.list _).mp (hreceiver _ rfl))).bind fun out hout => (inv.list out).mpr hout
      · exact inv.raise (.unexpected (by decide) (hreceiver _ rfl))
  · exact inv.raise (.unexpected (by decide) (hargs _ List.mem_cons_self))

end FragmentCall

end JsonTemplate
