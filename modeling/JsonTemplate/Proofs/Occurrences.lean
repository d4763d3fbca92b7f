/-
What a check is about. The names and calls in an expression are listed in the order of the check,
operands before the call that uses them, each with the names that the loops around it bind
(`occurrences`). Whether one offends is said of the expression as it was read, without the check
(`Offends`), and an expression compiles exactly when none does; otherwise every occurrence that
offends is reported once, in this order, at its own span (`compile_reports_offending`).
-/
import JsonTemplate.Proofs.Compilation
import JsonTemplate.Proofs.Nodes

namespace JsonTemplate

/-- A name or a call in an expression. The names in `bound` belong to loops around it. -/
inductive Occurrence
  | name (bound : List String) (span : Span) (name : String)
  | call (bound : List String) (span : Span) (target : Option Expr) (function : String)
      (args : List Expr)

namespace Occurrence

def span : Occurrence → Span
  | name _ span _ => span
  | call _ span _ _ _ => span

/-- The node it is. -/
def node : Occurrence → Expr
  | name _ span x => .ident span x
  | call _ span target function args => .call span target function args

theorem node_span (o : Occurrence) : o.node.span = o.span := by
  cases o <;> rfl

end Occurrence

namespace Expr

mutual

/-- The names and calls in an expression, in the order of the check. -/
def occurrences (bound : List String) : Expr → List Occurrence
  | literal _ _ => []
  | list _ items => occurrencesInItems bound items
  | dict _ entries => occurrencesInEntries bound entries
  | ident span name => [.name bound span name]
  | select _ operand _ | has _ operand _ | unary _ _ operand => occurrences bound operand
  | index _ left right | binary _ _ left right => occurrences bound left ++ occurrences bound right
  | call span target function args =>
    occurrencesInOptional bound target ++ occurrencesInItems bound args ++
      [.call bound span target function args]
  | quantify _ _ range name test => occurrences bound range ++ occurrences (name :: bound) test
  | collect _ range name test image =>
    occurrences bound range ++ occurrencesInOptional (name :: bound) test ++
      occurrences (name :: bound) image
  | conditional _ condition yes no =>
    occurrences bound condition ++ occurrences bound yes ++ occurrences bound no

def occurrencesInOptional (bound : List String) : Option Expr → List Occurrence
  | none => []
  | some e => occurrences bound e

def occurrencesInItems (bound : List String) : List Expr → List Occurrence
  | [] => []
  | e :: rest => occurrences bound e ++ occurrencesInItems bound rest

def occurrencesInEntries (bound : List String) : List (Expr × Expr) → List Occurrence
  | [] => []
  | (key, e) :: rest =>
    occurrences bound key ++ occurrences bound e ++ occurrencesInEntries bound rest

end

def isNameOrCall : Expr → Bool
  | ident _ _ | call _ _ _ _ => true
  | _ => false

mutual

/-- No name and no call of an expression is left out, and none is listed twice. -/
theorem occurrences_perm : ∀ (e : Expr) (bound : List String),
    ((e.occurrences bound).map Occurrence.node).Perm (e.nodes.filter isNameOrCall)
  | literal _ _, _ => .nil
  | ident _ _, _ => .refl _
  | list _ items, bound => occurrencesInItems_perm items bound
  | dict _ entries, bound => occurrencesInEntries_perm entries bound
  | select _ operand _, bound | has _ operand _, bound | unary _ _ operand, bound =>
    occurrences_perm operand bound
  | index _ left right, bound | binary _ _ left right, bound => by
    simpa [occurrences, nodes, isNameOrCall] using
      (occurrences_perm left bound).append (occurrences_perm right bound)
  | call span target function args, bound => by
    have hoperands := (occurrencesInOptional_perm target bound).append
      (occurrencesInItems_perm args bound)
    have hlast := (List.perm_append_singleton (call span target function args) _).trans
      (hoperands.cons _)
    simpa [occurrences, nodes, isNameOrCall, Occurrence.node, List.filter_cons] using hlast
  | quantify _ _ range name test, bound => by
    simpa [occurrences, nodes, isNameOrCall] using
      (occurrences_perm range bound).append (occurrences_perm test (name :: bound))
  | collect _ range name test image, bound => by
    simpa [occurrences, nodes, isNameOrCall] using
      (occurrences_perm range bound).append
        ((occurrencesInOptional_perm test (name :: bound)).append
          (occurrences_perm image (name :: bound)))
  | conditional _ condition yes no, bound => by
    simpa [occurrences, nodes, isNameOrCall] using
      (occurrences_perm condition bound).append
        ((occurrences_perm yes bound).append (occurrences_perm no bound))

theorem occurrencesInOptional_perm : ∀ (e : Option Expr) (bound : List String),
    ((occurrencesInOptional bound e).map Occurrence.node).Perm
      ((nodesOfOptional e).filter isNameOrCall)
  | none, _ => .nil
  | some e, bound => occurrences_perm e bound

theorem occurrencesInItems_perm : ∀ (items : List Expr) (bound : List String),
    ((occurrencesInItems bound items).map Occurrence.node).Perm
      ((nodesOfItems items).filter isNameOrCall)
  | [], _ => .nil
  | e :: rest, bound => by
    simpa [occurrencesInItems, nodesOfItems] using
      (occurrences_perm e bound).append (occurrencesInItems_perm rest bound)

theorem occurrencesInEntries_perm : ∀ (entries : List (Expr × Expr)) (bound : List String),
    ((occurrencesInEntries bound entries).map Occurrence.node).Perm
      ((nodesOfEntries entries).filter isNameOrCall)
  | [], _ => .nil
  | (key, e) :: rest, bound => by
    simpa [occurrencesInEntries, nodesOfEntries] using
      (occurrences_perm key bound).append
        ((occurrences_perm e bound).append (occurrencesInEntries_perm rest bound))

end

end Expr

/-! ## Offences -/

/-- A name that stands for a type: no loop binds it and it is not declared. -/
def Environment.IsTypeName (env : Environment) (bound : List String) (x : String) : Prop :=
  x ∉ bound ∧ x ∉ env.declared.keys ∧ x ∈ env.types.keys

instance (env : Environment) (bound : List String) (x : String) :
    Decidable (env.IsTypeName bound x) :=
  inferInstanceAs (Decidable (_ ∧ _ ∧ _))

/-- The constant that an operand is seen to be. The name of a type is a string. -/
def Expr.known? (env : Environment) (bound : List String) : Expr → Option Literal
  | literal _ value => some value
  | ident _ x => if env.IsTypeName bound x then
      (env.types.get? x).map fun type => .string type.name
    else none
  | _ => none

/-- A call fits an overload in its style, in the number of its arguments and in the types of those
operands that are known. -/
structure Overload.Fits (env : Environment) (bound : List String) (target : Option Expr)
    (args : List Expr) (o : Overload) : Prop where
  style : target.isSome = o.receiver.isSome
  least : o.required ≤ args.length
  most : args.length ≤ o.parameters.length
  target : ∀ e ∈ target, ∀ known ∈ e.known? env bound, ∀ type ∈ o.receiver,
    type.matches (.ofLiteral known) = true
  args : ∀ operand ∈ args.zip o.parameters, ∀ known ∈ operand.1.known? env bound,
    operand.2.type.matches (.ofLiteral known) = true

namespace Occurrence

/-- A name offends if it stands for nothing where it must stand for something, a call if there is
no function of the name or none of its overloads fits; a function without overloads takes all. -/
def Offends (env : Environment) : Occurrence → Prop
  | name bound _ x => env.rejectUndeclared = true ∧
      ¬ (x ∈ bound ∨ x ∈ env.declared.keys ∨ x ∈ env.types.keys)
  | call bound _ target function args =>
    ¬ ∃ f, env.functions.get? function = some f ∧ (f.signature.overloads = [] ∨
      ∃ o ∈ f.signature.overloads, o.Fits env bound target args)

/-- The type of an operand in messages. -/
def describe (env : Environment) (bound : List String) (e : Expr) : String :=
  match e.known? env bound with
  | some known => (Value.ofLiteral known).typeName
  | none => "dyn"

/-- What is reported of an occurrence that offends. -/
def diagnostic (env : Environment) : Occurrence → Diagnostic
  | name _ span x => ⟨span, .undeclaredName x⟩
  | call bound span target function args =>
    match env.functions.get? function with
    | none => ⟨span, .undeclaredFunction function⟩
    | some _ =>
      let shape := match target with
        | some t => describe env bound t ++ "." ++ function
        | none => function
      ⟨span, .noOverload shape (args.map (describe env bound))⟩

theorem diagnostic_span (env : Environment) (o : Occurrence) :
    (o.diagnostic env).span = o.span := by
  cases o with
  | name => rfl
  | call bound span target function args =>
    simp only [diagnostic]
    cases env.functions.get? function <;> rfl

end Occurrence

/-! ## What the check sees of operands -/

namespace Expr

section Resolve

variable {env : Environment} {bound : List String}

theorem resolveName_of_type {x : String} (h : env.IsTypeName bound x) (span : Span) :
    ∃ type, env.types.get? x = some type ∧
      resolveName env bound span x = literal span (.string type.name) := by
  obtain ⟨hbound, hdeclared, htype⟩ := h
  obtain ⟨type, htype⟩ := Option.isSome_iff_exists.mp ((Entries.mem_keys_iff _ _).mp htype)
  have hknown : (bound.contains x || env.declared.contains x) = false := by
    rw [Entries.mem_keys_iff] at hdeclared
    simp [hbound, Entries.contains, hdeclared]
  refine ⟨type, htype, ?_⟩
  rw [resolveName, hknown, htype]
  rfl

theorem resolveName_of_not_type {x : String} (h : ¬ env.IsTypeName bound x) (span : Span) :
    resolveName env bound span x = ident span x := by
  unfold resolveName
  split
  · rfl
  · rename_i hknown
    simp only [Bool.or_eq_true, not_or, List.contains_iff_mem, Entries.contains,
      ← Entries.mem_keys_iff] at hknown
    have htype : x ∉ env.types.keys := fun htype => h ⟨hknown.1, hknown.2, htype⟩
    rw [Entries.mem_keys_iff, Option.not_isSome_iff_eq_none] at htype
    rw [htype]

/-- The check sees an operand with its type names resolved. -/
theorem literal?_resolveTypes (e : Expr) :
    (resolveTypes env bound e).literal? = e.known? env bound := by
  cases e with
  | ident span x =>
    rw [resolveTypes, known?]
    by_cases h : env.IsTypeName bound x
    · obtain ⟨type, htype, hresolve⟩ := resolveName_of_type h span
      rw [hresolve, if_pos h, htype]
      rfl
    · rw [resolveName_of_not_type h, if_neg h]
      rfl
  | _ => rfl

theorem describe_resolveTypes (e : Expr) :
    (resolveTypes env bound e).describe = Occurrence.describe env bound e := by
  rw [Expr.describe, literal?_resolveTypes]
  rfl

theorem resolveItems_eq_map (items : List Expr) :
    resolveItems env bound items = items.map (resolveTypes env bound) := by
  induction items with
  | nil => rfl
  | cons e rest ih => rw [resolveItems, ih, List.map_cons]

theorem resolveOptional_eq_map (e : Option Expr) :
    resolveOptional env bound e = e.map (resolveTypes env bound) := by
  cases e <;> rfl

end Resolve

end Expr

namespace Occurrence

variable (env : Environment)

/-- What becomes of an occurrence when the names of types are resolved: such a name is gone. -/
def resolve : Occurrence → Option Occurrence
  | name bound span x => if env.IsTypeName bound x then none else some (name bound span x)
  | call bound span target function args =>
    some (call bound span (Expr.resolveOptional env bound target) function
      (Expr.resolveItems env bound args))

/-- What the check finds at an occurrence, the names of types being resolved. -/
def faults : Occurrence → List Diagnostic
  | name bound span x => Expr.nameFaults env bound span x
  | call _ span target function args => Expr.callFaults env span target function args

end Occurrence

namespace Expr

variable (env : Environment)

mutual

/-- The check goes through the occurrences in order. -/
theorem faults_eq_flatMap : ∀ (e : Expr) (bound : List String),
    faults env bound e = (e.occurrences bound).flatMap (Occurrence.faults env)
  | literal _ _, _ => rfl
  | list _ items, bound => faultsOfItems_eq_flatMap items bound
  | dict _ entries, bound => faultsOfEntries_eq_flatMap entries bound
  | ident _ _, _ => by simp [faults, occurrences, Occurrence.faults]
  | select _ operand _, bound | has _ operand _, bound | unary _ _ operand, bound =>
    faults_eq_flatMap operand bound
  | index _ left right, bound | binary _ _ left right, bound => by
    simp [faults, occurrences, faults_eq_flatMap left, faults_eq_flatMap right]
  | call _ target _ args, bound => by
    simp [faults, occurrences, Occurrence.faults, faultsOfOptional_eq_flatMap target,
      faultsOfItems_eq_flatMap args]
  | quantify _ _ range _ test, bound => by
    simp [faults, occurrences, faults_eq_flatMap range, faults_eq_flatMap test]
  | collect _ range _ test image, bound => by
    simp [faults, occurrences, faults_eq_flatMap range, faultsOfOptional_eq_flatMap test,
      faults_eq_flatMap image]
  | conditional _ condition yes no, bound => by
    simp [faults, occurrences, faults_eq_flatMap condition, faults_eq_flatMap yes,
      faults_eq_flatMap no]

theorem faultsOfOptional_eq_flatMap : ∀ (e : Option Expr) (bound : List String),
    faultsOfOptional env bound e =
      (occurrencesInOptional bound e).flatMap (Occurrence.faults env)
  | none, _ => rfl
  | some e, bound => faults_eq_flatMap e bound

theorem faultsOfItems_eq_flatMap : ∀ (items : List Expr) (bound : List String),
    faultsOfItems env bound items =
      (occurrencesInItems bound items).flatMap (Occurrence.faults env)
  | [], _ => rfl
  | e :: rest, bound => by
    simp [faultsOfItems, occurrencesInItems, faults_eq_flatMap e, faultsOfItems_eq_flatMap rest]

theorem faultsOfEntries_eq_flatMap : ∀ (entries : List (Expr × Expr)) (bound : List String),
    faultsOfEntries env bound entries =
      (occurrencesInEntries bound entries).flatMap (Occurrence.faults env)
  | [], _ => rfl
  | (key, e) :: rest, bound => by
    simp [faultsOfEntries, occurrencesInEntries, faults_eq_flatMap key, faults_eq_flatMap e,
      faultsOfEntries_eq_flatMap rest]

end

mutual

/-- Resolving the names of types takes these names away and leaves every other occurrence where it
was. -/
theorem occurrences_resolveTypes : ∀ (e : Expr) (bound : List String),
    (resolveTypes env bound e).occurrences bound =
      (e.occurrences bound).filterMap (Occurrence.resolve env)
  | literal _ _, _ => rfl
  | list _ items, bound => occurrencesInItems_resolveItems items bound
  | dict _ entries, bound => occurrencesInEntries_resolveEntries entries bound
  | ident span x, bound => by
    rw [resolveTypes]
    by_cases h : env.IsTypeName bound x
    · obtain ⟨type, -, hresolve⟩ := resolveName_of_type h span
      simp [hresolve, occurrences, Occurrence.resolve, h]
    · simp [resolveName_of_not_type h, occurrences, Occurrence.resolve, h]
  | select _ operand _, bound | has _ operand _, bound | unary _ _ operand, bound =>
    occurrences_resolveTypes operand bound
  | index _ left right, bound | binary _ _ left right, bound => by
    simp [resolveTypes, occurrences, occurrences_resolveTypes left,
      occurrences_resolveTypes right]
  | call _ target _ args, bound => by
    simp [resolveTypes, occurrences, Occurrence.resolve,
      occurrencesInOptional_resolveOptional target, occurrencesInItems_resolveItems args]
  | quantify _ _ range _ test, bound => by
    simp [resolveTypes, occurrences, occurrences_resolveTypes range,
      occurrences_resolveTypes test]
  | collect _ range _ test image, bound => by
    simp [resolveTypes, occurrences, occurrences_resolveTypes range,
      occurrencesInOptional_resolveOptional test, occurrences_resolveTypes image]
  | conditional _ condition yes no, bound => by
    simp [resolveTypes, occurrences, occurrences_resolveTypes condition,
      occurrences_resolveTypes yes, occurrences_resolveTypes no]

theorem occurrencesInOptional_resolveOptional : ∀ (e : Option Expr) (bound : List String),
    occurrencesInOptional bound (resolveOptional env bound e) =
      (occurrencesInOptional bound e).filterMap (Occurrence.resolve env)
  | none, _ => rfl
  | some e, bound => occurrences_resolveTypes e bound

theorem occurrencesInItems_resolveItems : ∀ (items : List Expr) (bound : List String),
    occurrencesInItems bound (resolveItems env bound items) =
      (occurrencesInItems bound items).filterMap (Occurrence.resolve env)
  | [], _ => rfl
  | e :: rest, bound => by
    simp [resolveItems, occurrencesInItems, occurrences_resolveTypes e,
      occurrencesInItems_resolveItems rest]

theorem occurrencesInEntries_resolveEntries : ∀ (entries : List (Expr × Expr))
    (bound : List String), occurrencesInEntries bound (resolveEntries env bound entries) =
      (occurrencesInEntries bound entries).filterMap (Occurrence.resolve env)
  | [], _ => rfl
  | (key, e) :: rest, bound => by
    simp [resolveEntries, occurrencesInEntries, occurrences_resolveTypes key,
      occurrences_resolveTypes e, occurrencesInEntries_resolveEntries rest]

end

end Expr

/-! ## What the check decides -/

section Decide

variable (env : Environment) (bound : List String) (target : Option Expr) (args : List Expr)

/-- The check of an overload goes by the operands that are known. -/
theorem Overload.fits_iff (o : Overload) : o.Fits env bound target args ↔
    o.mayAccept (target.map (Expr.known? env bound)) (args.map (Expr.known? env bound)) = true := by
  have hoperand : ∀ (type : ValueType) (known : Option Literal), type.mayMatch known = true ↔
      ∀ value ∈ known, type.matches (.ofLiteral value) = true := by
    intro type known
    cases known <;> simp [ValueType.mayMatch]
  have htarget : o.mayAcceptTarget (target.map (Expr.known? env bound)) = true ↔
      ∀ e ∈ target, ∀ known ∈ e.known? env bound, ∀ type ∈ o.receiver,
        type.matches (.ofLiteral known) = true := by
    cases target with
    | none => simp [Overload.mayAcceptTarget]
    | some e =>
      cases hreceiver : o.receiver <;> simp [Overload.mayAcceptTarget, hreceiver, hoperand]
  rw [Overload.mayAccept, Bool.and_eq_true, Bool.and_eq_true, htarget, Overload.takes]
  simp only [Option.isSome_map, List.length_map, Bool.and_eq_true, beq_iff_eq, decide_eq_true_eq,
    List.zip_map_left, List.all_map, List.all_eq_true, Function.comp, Prod.map, id, hoperand]
  constructor
  · intro h
    exact ⟨⟨⟨⟨h.style, h.least⟩, h.most⟩, h.target⟩, h.args⟩
  · rintro ⟨⟨⟨⟨hstyle, hleast⟩, hmost⟩, ht⟩, ha⟩
    exact ⟨hstyle, hleast, hmost, ht, ha⟩

instance (o : Overload) : Decidable (o.Fits env bound target args) :=
  decidable_of_iff _ (o.fits_iff env bound target args).symm

/-- A function may take a call if it has no overloads or one that fits. -/
theorem Signature.mayAccept_iff (s : Signature) :
    s.mayAccept (target.map (Expr.known? env bound)) (args.map (Expr.known? env bound)) = true ↔
      s.overloads = [] ∨ ∃ o ∈ s.overloads, o.Fits env bound target args := by
  simp only [Signature.mayAccept, Bool.or_eq_true, List.isEmpty_iff, List.any_eq_true,
    Overload.fits_iff]

end Decide

namespace Occurrence

variable (env : Environment)

instance : (o : Occurrence) → Decidable (o.Offends env)
  | name bound _ x => inferInstanceAs (Decidable (_ ∧ ¬ (x ∈ bound ∨ _ ∨ _)))
  | call bound _ target function args =>
    match h : env.functions.get? function with
    | none => isTrue (by simp [Offends, h])
    | some f => decidable_of_iff (¬ (f.signature.overloads = [] ∨
        ∃ o ∈ f.signature.overloads, o.Fits env bound target args)) (by simp [Offends, h])

/-- The check of a name that no type has. -/
theorem nameFaults_eq {bound : List String} {x : String} (htype : ¬ env.IsTypeName bound x)
    (span : Span) : Expr.nameFaults env bound span x =
      if (name bound span x).Offends env then [⟨span, .undeclaredName x⟩] else [] := by
  have hknown : (bound.contains x || env.declared.contains x || !env.rejectUndeclared) = true ↔
      ¬ (name bound span x).Offends env := by
    simp only [Environment.IsTypeName, not_and] at htype
    simp only [Bool.or_eq_true, List.contains_iff_mem, Entries.contains,
      ← Entries.mem_keys_iff, Bool.not_eq_true', Offends]
    cases env.rejectUndeclared <;> grind
  rw [Expr.nameFaults]
  by_cases h : (name bound span x).Offends env
  · rw [if_neg (fun hfine => hknown.mp hfine h), if_pos h]
  · rw [if_pos (hknown.mpr h), if_neg h]

/-- The check of a call whose operands have their type names resolved. -/
theorem callFaults_resolve (bound : List String) (span : Span) (target : Option Expr)
    (function : String) (args : List Expr) :
    Expr.callFaults env span (Expr.resolveOptional env bound target) function
        (Expr.resolveItems env bound args) =
      if (call bound span target function args).Offends env
      then [(call bound span target function args).diagnostic env] else [] := by
  have hargs : (args.map (Expr.resolveTypes env bound)).map Expr.literal? =
      args.map (Expr.known? env bound) := by
    simp [Function.comp_def, Expr.literal?_resolveTypes]
  have htarget : (target.map (Expr.resolveTypes env bound)).map Expr.literal? =
      target.map (Expr.known? env bound) := by
    simp [Function.comp_def, Expr.literal?_resolveTypes]
  have hshapes : (args.map (Expr.resolveTypes env bound)).map Expr.describe =
      args.map (describe env bound) := by
    simp [Function.comp_def, Expr.describe_resolveTypes]
  unfold Expr.callFaults diagnostic
  simp only [Expr.resolveOptional_eq_map, Expr.resolveItems_eq_map, hargs, htarget, hshapes]
  cases hf : env.functions.get? function with
  | none =>
    have hoffends : (call bound span target function args).Offends env := by simp [Offends, hf]
    rw [if_pos hoffends]
  | some f =>
    have hoffends : (call bound span target function args).Offends env ↔ ¬ f.signature.mayAccept
        (target.map (Expr.known? env bound)) (args.map (Expr.known? env bound)) = true := by
      rw [Signature.mayAccept_iff]
      simp [Offends, hf]
    dsimp only
    by_cases h : (call bound span target function args).Offends env
    · rw [if_pos h, if_neg (hoffends.mp h)]
      cases target <;> simp [Expr.describe_resolveTypes]
    · rw [if_neg h, if_pos (Decidable.not_not.mp fun hrefused => h (hoffends.mpr hrefused))]

/-- The check finds one fault at an occurrence that offends, and none at any other. -/
theorem faults_resolve (o : Occurrence) : (o.resolve env).toList.flatMap (faults env) =
    if o.Offends env then [o.diagnostic env] else [] := by
  cases o with
  | name bound span x =>
    by_cases htype : env.IsTypeName bound x
    · have hfine : ¬ (name bound span x).Offends env := fun h => h.2 (.inr (.inr htype.2.2))
      simp [resolve, htype, hfine]
    · simp [resolve, htype, faults, nameFaults_eq env htype, diagnostic]
  | call bound span target function args =>
    simp [resolve, faults, callFaults_resolve]

theorem flatMap_faults (occurrences : List Occurrence) :
    (occurrences.filterMap (resolve env)).flatMap (faults env) =
      (occurrences.filter (·.Offends env)).map (diagnostic env) := by
  induction occurrences with
  | nil => rfl
  | cons o rest ih =>
    have hfirst := faults_resolve env o
    -- The name of a type is gone when it is checked, so it has no fault of its own.
    have hsplit : ((o :: rest).filterMap (resolve env)).flatMap (faults env) =
        (o.resolve env).toList.flatMap (faults env) ++
          (rest.filterMap (resolve env)).flatMap (faults env) := by
      cases ho : o.resolve env <;> simp [ho]
    rw [hsplit, hfirst, ih]
    by_cases h : o.Offends env <;> simp [h]

end Occurrence

/-! ## Main result -/

/-- The faults of an expression, from the expression as it was read. -/
theorem Expr.faults_eq_offences (env : Environment) (e : Expr) :
    (e.resolveTypes env []).faults env [] =
      ((e.occurrences []).filter (·.Offends env)).map (Occurrence.diagnostic env) := by
  rw [faults_eq_flatMap, occurrences_resolveTypes, Occurrence.flatMap_faults]

/-- **An expression compiles exactly when nothing in it offends.** Every name and call of the
expression is looked at once. Each that offends is reported once, at its own span, operands before
the call that uses them. -/
theorem compile_reports_offending (env : Environment) (source : String) (e : Expr)
    (hparse : Expr.parse source = .ok e) :
    ((e.occurrences []).map Occurrence.node).Perm (e.nodes.filter Expr.isNameOrCall) ∧
    ((∃ p, env.compile source = .ok p) ↔ ∀ o ∈ e.occurrences [], ¬ o.Offends env) ∧
    ∀ found, env.compile source = .error found →
      found = ((e.occurrences []).filter (·.Offends env)).map (Occurrence.diagnostic env) ∧
      found.map Diagnostic.span =
        ((e.occurrences []).filter (·.Offends env)).map Occurrence.span := by
  have hfaults := e.faults_eq_offences env
  refine ⟨e.occurrences_perm [], ?_, ?_⟩
  · have hnone : (e.resolveTypes env []).faults env [] = [] ↔
        ∀ o ∈ e.occurrences [], ¬ o.Offends env := by
      rw [hfaults, List.map_eq_nil_iff, List.filter_eq_nil_iff]
      simp only [decide_eq_true_eq]
    simp [Environment.compile_eq_ok, hparse, hnone]
  · intro found hfound
    have hreported : found = (e.resolveTypes env []).faults env [] := by
      simp only [Environment.compile, hparse] at hfound
      split at hfound
      · cases hfound
      · exact (Except.error.inj hfound).symm
    rw [hfaults] at hreported
    refine ⟨hreported, ?_⟩
    rw [hreported, List.map_map]
    exact List.map_congr_left fun o _ => o.diagnostic_span env

/-- A name of a type offends where it is a string and not where a loop binds it; the branch that is
never taken is looked at too. -/
theorem compile_reports_offending_of_branches :
    ∃ e, Expr.parse ("[1].map(y, y + z) == OrderedObject.flatten() || true" ++
        " ? [[]].map(OrderedObject, OrderedObject.flatten()) : nope(y)") = .ok e ∧
      ((e.occurrences []).filter (·.Offends { Environment.standard.registerType .record with
        rejectUndeclared := true })).map Occurrence.span =
          [⟨15, 16⟩, ⟨21, 44⟩, ⟨111, 112⟩, ⟨106, 113⟩] := by
  have hfound : failure? (Environment.compile { Environment.standard.registerType .record with
      rejectUndeclared := true } ("[1].map(y, y + z) == OrderedObject.flatten() || true" ++
        " ? [[]].map(OrderedObject, OrderedObject.flatten()) : nope(y)")) =
      some [⟨⟨15, 16⟩, .undeclaredName "z"⟩,
        ⟨⟨21, 44⟩, .noOverload "string.flatten" []⟩, ⟨⟨111, 112⟩, .undeclaredName "y"⟩,
        ⟨⟨106, 113⟩, .undeclaredFunction "nope"⟩] := by
    decide +kernel
  obtain ⟨e, he⟩ : ∃ e, Expr.parse ("[1].map(y, y + z) == OrderedObject.flatten() || true" ++
      " ? [[]].map(OrderedObject, OrderedObject.flatten()) : nope(y)") = .ok e :=
    failure?_eq_none.mp (by decide +kernel)
  rw [failure?_eq_some] at hfound
  exact ⟨e, he, ((compile_reports_offending _ _ e he).2.2 _ hfound).2.symm⟩

end JsonTemplate
