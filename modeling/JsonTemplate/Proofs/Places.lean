/-
Trees at other places. `respan` changes the span of every node. Expansion does not look at spans
(`respan_expandMacros`), nor does the check (`respan_resolveTypes`, `faults_respan`), and what is
changed back is the same tree again (`respan_back`).
-/
import JsonTemplate.Proofs.Grammar
import JsonTemplate.Proofs.Outcome
import JsonTemplate.Proofs.Nodes

namespace JsonTemplate

namespace Expr

mutual

/-- The tree with every span changed. -/
def respan (g : Span → Span) : Expr → Expr
  | literal span value => literal (g span) value
  | list span items => list (g span) (respanItems g items)
  | dict span entries => dict (g span) (respanEntries g entries)
  | ident span name => ident (g span) name
  | select span operand field => select (g span) (operand.respan g) field
  | index span operand i => index (g span) (operand.respan g) (i.respan g)
  | call span target function args =>
    call (g span) (respanOptional g target) function (respanItems g args)
  | has span operand field => has (g span) (operand.respan g) field
  | quantify span q range name test => quantify (g span) q (range.respan g) name (test.respan g)
  | collect span range name test image =>
    collect (g span) (range.respan g) name (respanOptional g test) (image.respan g)
  | conditional span condition yes no =>
    conditional (g span) (condition.respan g) (yes.respan g) (no.respan g)
  | binary span op left right => binary (g span) op (left.respan g) (right.respan g)
  | unary span op operand => unary (g span) op (operand.respan g)

def respanOptional (g : Span → Span) : Option Expr → Option Expr
  | none => none
  | some e => some (e.respan g)

def respanItems (g : Span → Span) : List Expr → List Expr
  | [] => []
  | e :: rest => e.respan g :: respanItems g rest

def respanEntries (g : Span → Span) : List (Expr × Expr) → List (Expr × Expr)
  | [] => []
  | (key, e) :: rest => (key.respan g, e.respan g) :: respanEntries g rest

end

section Respan

variable (g h : Span → Span)

@[simp] theorem span_respan (e : Expr) : (e.respan g).span = g e.span := by
  cases e <;> rfl

theorem respanItems_eq (items : List Expr) : respanItems g items = items.map (respan g) := by
  induction items with
  | nil => rfl
  | cons e rest ih => rw [respanItems, ih, List.map_cons]

theorem respanEntries_eq (entries : List (Expr × Expr)) :
    respanEntries g entries = entries.map fun entry => (entry.1.respan g, entry.2.respan g) := by
  induction entries with
  | nil => rfl
  | cons entry rest ih => rw [respanEntries, ih, List.map_cons]

/-- What a prefix operator makes of an operand does not depend on places. -/
theorem respan_applyUnary (span : Span) (op : UnaryOp) (e : Expr) :
    (Reader.applyUnary span op e).respan g = Reader.applyUnary (g span) op (e.respan g) := by
  cases op with
  | not => rfl
  | neg =>
    cases e with
    | literal s v => cases v <;> rfl
    | _ => rfl

theorem respan_foldr_applyUnary (span : Span) (ops : List UnaryOp) (e : Expr) :
    (ops.foldr (Reader.applyUnary span) e).respan g =
      ops.foldr (Reader.applyUnary (g span)) (e.respan g) := by
  induction ops with
  | nil => rfl
  | cons op ops ih => rw [List.foldr_cons, respan_applyUnary, ih, List.foldr_cons]

/-! ## There and back -/

mutual

/-- Spans that are changed back. -/
theorem respan_back : ∀ {e : Expr}, (∀ s ∈ e.spans, h (g s) = s) → (e.respan g).respan h = e
  | literal _ _, hback | ident _ _, hback => by
    simp_all [respan]
  | list _ items, hback => by
    simp only [spans_list, List.forall_mem_cons] at hback
    simp only [respan, hback.1, respanItems_back hback.2]
  | dict _ entries, hback => by
    simp only [spans_dict, List.forall_mem_cons] at hback
    simp only [respan, hback.1, respanEntries_back hback.2]
  | select _ operand _, hback | has _ operand _, hback | unary _ _ operand, hback => by
    simp only [spans_select, spans_has, spans_unary, List.forall_mem_cons] at hback
    simp only [respan, hback.1, respan_back hback.2]
  | index _ left right, hback | binary _ _ left right, hback
  | quantify _ _ left _ right, hback => by
    simp only [spans_index, spans_binary, spans_quantify, List.forall_mem_cons,
      List.forall_mem_append] at hback
    simp only [respan, hback.1, respan_back hback.2.1, respan_back hback.2.2]
  | call _ target _ args, hback => by
    simp only [spans_call, List.forall_mem_cons, List.forall_mem_append] at hback
    simp only [respan, hback.1, respanOptional_back hback.2.1, respanItems_back hback.2.2]
  | collect _ range _ test image, hback => by
    simp only [spans_collect, List.forall_mem_cons, List.forall_mem_append] at hback
    obtain ⟨hspan, hrange, htest, himage⟩ := hback
    simp only [respan, hspan, respan_back hrange, respanOptional_back htest, respan_back himage]
  | conditional _ condition yes no, hback => by
    simp only [spans_conditional, List.forall_mem_cons, List.forall_mem_append] at hback
    obtain ⟨hspan, hcondition, hyes, hno⟩ := hback
    simp only [respan, hspan, respan_back hcondition, respan_back hyes, respan_back hno]

theorem respanOptional_back : ∀ {e : Option Expr}, (∀ s ∈ spansOfOptional e, h (g s) = s) →
    respanOptional h (respanOptional g e) = e
  | none, _ => rfl
  | some _, hback => congrArg some (respan_back hback)

theorem respanItems_back : ∀ {items : List Expr}, (∀ s ∈ spansOfItems items, h (g s) = s) →
    respanItems h (respanItems g items) = items
  | [], _ => rfl
  | e :: rest, hback => by
    simp only [spansOfItems_cons, List.forall_mem_append] at hback
    simp only [respanItems, respan_back hback.1, respanItems_back hback.2]

theorem respanEntries_back : ∀ {entries : List (Expr × Expr)},
    (∀ s ∈ spansOfEntries entries, h (g s) = s) →
      respanEntries h (respanEntries g entries) = entries
  | [], _ => rfl
  | (key, e) :: rest, hback => by
    simp only [spansOfEntries_cons, List.forall_mem_append] at hback
    obtain ⟨hkey, he, hrest⟩ := hback
    simp only [respanEntries, respan_back hkey, respan_back he, respanEntries_back hrest]

end

/-! ## Trees without places -/

mutual

theorem bare_eq : ∀ e : Expr, e.bare = e.respan fun _ => default
  | literal _ _ | ident _ _ => rfl
  | list _ items => by simp only [bare, respan, bareItems_eq items]
  | dict _ entries => by simp only [bare, respan, bareEntries_eq entries]
  | select _ operand _ | has _ operand _ | unary _ _ operand => by
    simp only [bare, respan, bare_eq operand]
  | index _ left right | binary _ _ left right | quantify _ _ left _ right => by
    simp only [bare, respan, bare_eq left, bare_eq right]
  | call _ target _ args => by simp only [bare, respan, bareOptional_eq target, bareItems_eq args]
  | collect _ range _ test image => by
    simp only [bare, respan, bare_eq range, bareOptional_eq test, bare_eq image]
  | conditional _ condition yes no => by
    simp only [bare, respan, bare_eq condition, bare_eq yes, bare_eq no]

theorem bareOptional_eq : ∀ e : Option Expr, bareOptional e = respanOptional (fun _ => default) e
  | none => rfl
  | some e => congrArg some (bare_eq e)

theorem bareItems_eq : ∀ items : List Expr, bareItems items = respanItems (fun _ => default) items
  | [] => rfl
  | e :: rest => by simp only [bareItems, respanItems, bare_eq e, bareItems_eq rest]

theorem bareEntries_eq : ∀ entries : List (Expr × Expr),
    bareEntries entries = respanEntries (fun _ => default) entries
  | [] => rfl
  | (key, e) :: rest => by
    simp only [bareEntries, respanEntries, bare_eq key, bare_eq e, bareEntries_eq rest]

end

end Respan

end Expr

/-! ## Calls with a meaning of their own -/

theorem toOption_bind {ε α β : Type} (x : Except ε α) (f : α → Except ε β) :
    (x >>= f).toOption = x.toOption.bind fun a => (f a).toOption := by
  cases x <;> rfl

theorem toOption_map {ε α β : Type} (x : Except ε α) (f : α → β) :
    (x.map f).toOption = x.toOption.map f := by
  cases x <;> rfl

theorem toOption_eq_some {ε α : Type} {x : Except ε α} {a : α} :
    x.toOption = some a ↔ x = .ok a := by
  cases x <;> simp [Except.toOption]

namespace Expr

section Expansion

variable (g : Span → Span)

theorem loopName_respan (word : LoopWord) (e : Expr) :
    (loopName word (e.respan g)).toOption = (loopName word e).toOption := by
  cases e <;> rfl

theorem ofLoop_respan (span : Span) (word : LoopWord) (range : Expr) (args : List Expr) :
    (ofLoop (g span) word (range.respan g) (respanItems g args)).toOption =
      (ofLoop span word range args).toOption.map (respan g) := by
  match word, args with
  | .map, [e, image] =>
    simp only [ofLoop, respanItems, toOption_bind, loopName_respan]
    cases (loopName .map e).toOption <;> rfl
  | .map, [e, test, image] =>
    simp only [ofLoop, respanItems, toOption_bind, loopName_respan]
    cases (loopName .map e).toOption <;> rfl
  | .quantifier q, [e, test] =>
    simp only [ofLoop, respanItems, toOption_bind, loopName_respan]
    cases (loopName (.quantifier q) e).toOption <;> rfl
  | .map, [] | .map, [_] | .map, _ :: _ :: _ :: _ :: _ => rfl
  | .quantifier _, [] | .quantifier _, [_] | .quantifier _, _ :: _ :: _ :: _ => rfl

theorem ofCall_respan (span : Span) (target : Option Expr) (function : String)
    (args : List Expr) :
    (ofCall (g span) (respanOptional g target) function (respanItems g args)).toOption =
      (ofCall span target function args).toOption.map (respan g) := by
  cases target with
  | some range =>
    simp only [respanOptional, ofCall]
    cases LoopWord.ofName? function with
    | some word => exact ofLoop_respan g span word range args
    | none => rfl
  | none =>
    by_cases hhas : function = "has"
    · simp only [respanOptional, ofCall, hhas, ↓reduceIte]
      rcases args with _ | ⟨e, rest⟩
      · rfl
      · cases rest <;> cases e <;> rfl
    · simp only [respanOptional, ofCall, hhas, ↓reduceIte]
      rfl

mutual

/-- A tree is expanded alike wherever it stands. -/
theorem respan_expandMacros (e : Expr) :
    (e.respan g).expandMacros.toOption = e.expandMacros.toOption.map (respan g) := by
  match e with
  | literal _ _ => rfl
  | ident _ _ => rfl
  | list _ items =>
    simp only [respan, expandMacros, toOption_bind, respan_expandItems items]
    cases (expandItems items).toOption <;> rfl
  | dict _ entries =>
    simp only [respan, expandMacros, toOption_bind, respan_expandEntries entries]
    cases (expandEntries entries).toOption <;> rfl
  | select _ operand _ | has _ operand _ | unary _ _ operand =>
    simp only [respan, expandMacros, toOption_bind, respan_expandMacros operand]
    cases operand.expandMacros.toOption <;> rfl
  | index _ left right | binary _ _ left right | quantify _ _ left _ right =>
    simp only [respan, expandMacros, toOption_bind, respan_expandMacros left,
      respan_expandMacros right]
    cases left.expandMacros.toOption <;> cases right.expandMacros.toOption <;> rfl
  | call span target function args =>
    simp only [respan, expandMacros, toOption_bind, respan_expandOptional target,
      respan_expandItems args]
    cases (expandOptional target).toOption with
    | none => rfl
    | some target =>
      cases (expandItems args).toOption with
      | none => rfl
      | some args => exact ofCall_respan g span target function args
  | collect _ range _ test image =>
    simp only [respan, expandMacros, toOption_bind, respan_expandMacros range,
      respan_expandOptional test, respan_expandMacros image]
    cases range.expandMacros.toOption <;> cases (expandOptional test).toOption <;>
      cases image.expandMacros.toOption <;> rfl
  | conditional _ condition yes no =>
    simp only [respan, expandMacros, toOption_bind, respan_expandMacros condition,
      respan_expandMacros yes, respan_expandMacros no]
    cases condition.expandMacros.toOption <;> cases yes.expandMacros.toOption <;>
      cases no.expandMacros.toOption <;> rfl

theorem respan_expandOptional (e : Option Expr) : (expandOptional (respanOptional g e)).toOption =
    (expandOptional e).toOption.map (respanOptional g) := by
  match e with
  | none => rfl
  | some e =>
    simp only [respanOptional, expandOptional, toOption_bind, respan_expandMacros e]
    cases e.expandMacros.toOption <;> rfl

theorem respan_expandItems (es : List Expr) :
    (expandItems (respanItems g es)).toOption = (expandItems es).toOption.map (respanItems g) := by
  match es with
  | [] => rfl
  | e :: rest =>
    simp only [respanItems, expandItems, toOption_bind, respan_expandMacros e,
      respan_expandItems rest]
    cases e.expandMacros.toOption <;> cases (expandItems rest).toOption <;> rfl

theorem respan_expandEntries (es : List (Expr × Expr)) :
    (expandEntries (respanEntries g es)).toOption =
      (expandEntries es).toOption.map (respanEntries g) := by
  match es with
  | [] => rfl
  | (key, e) :: rest =>
    simp only [respanEntries, expandEntries, toOption_bind, respan_expandMacros key,
      respan_expandMacros e, respan_expandEntries rest]
    cases key.expandMacros.toOption <;> cases e.expandMacros.toOption <;>
      cases (expandEntries rest).toOption <;> rfl

end

theorem expandMacros_respan {e t : Expr} (h : e.expandMacros = .ok t) :
    (e.respan g).expandMacros = .ok (t.respan g) := by
  rw [← toOption_eq_some, respan_expandMacros, toOption_eq_some.mpr h]
  rfl

end Expansion

end Expr

/-! ## The check -/

/-- The diagnostic with its span changed. -/
def Diagnostic.respan (g : Span → Span) (d : Diagnostic) : Diagnostic := ⟨g d.span, d.fault⟩

namespace Expr

section Check

variable (g : Span → Span)

@[simp] theorem literal?_respan (e : Expr) : (e.respan g).literal? = e.literal? := by
  cases e <;> rfl

@[simp] theorem describe_respan (e : Expr) : (e.respan g).describe = e.describe := by
  rw [describe, describe, literal?_respan]

variable (env : Environment)

mutual

/-- The names of types are resolved alike wherever they stand. -/
theorem respan_resolveTypes : ∀ (e : Expr) (bound : List String),
    (resolveTypes env bound e).respan g = resolveTypes env bound (e.respan g)
  | literal _ _, _ => rfl
  | ident span name, bound => by
    rw [respan, resolveTypes, resolveTypes, resolveName, resolveName]
    split
    · rfl
    · split <;> rfl
  | list _ items, bound => by simp only [respan, resolveTypes, respan_resolveItems items]
  | dict _ entries, bound => by simp only [respan, resolveTypes, respan_resolveEntries entries]
  | select _ operand _, bound | has _ operand _, bound | unary _ _ operand, bound => by
    simp only [respan, resolveTypes, respan_resolveTypes operand]
  | index _ left right, bound | binary _ _ left right, bound
  | quantify _ _ left _ right, bound => by
    simp only [respan, resolveTypes, respan_resolveTypes left, respan_resolveTypes right]
  | call _ target _ args, bound => by
    simp only [respan, resolveTypes, respan_resolveOptional target, respan_resolveItems args]
  | collect _ range _ test image, bound => by
    simp only [respan, resolveTypes, respan_resolveTypes range, respan_resolveOptional test,
      respan_resolveTypes image]
  | conditional _ condition yes no, bound => by
    simp only [respan, resolveTypes, respan_resolveTypes condition, respan_resolveTypes yes,
      respan_resolveTypes no]

theorem respan_resolveOptional : ∀ (e : Option Expr) (bound : List String),
    respanOptional g (resolveOptional env bound e) = resolveOptional env bound (respanOptional g e)
  | none, _ => rfl
  | some e, bound => congrArg some (respan_resolveTypes e bound)

theorem respan_resolveItems : ∀ (items : List Expr) (bound : List String),
    respanItems g (resolveItems env bound items) = resolveItems env bound (respanItems g items)
  | [], _ => rfl
  | e :: rest, bound => by
    simp only [respanItems, resolveItems, respan_resolveTypes e, respan_resolveItems rest]

theorem respan_resolveEntries : ∀ (entries : List (Expr × Expr)) (bound : List String),
    respanEntries g (resolveEntries env bound entries) =
      resolveEntries env bound (respanEntries g entries)
  | [], _ => rfl
  | (key, e) :: rest, bound => by
    simp only [respanEntries, resolveEntries, respan_resolveTypes key, respan_resolveTypes e,
      respan_resolveEntries rest]

end

theorem callFaults_respan (span : Span) (target : Option Expr) (function : String)
    (args : List Expr) :
    callFaults env (g span) (respanOptional g target) function (respanItems g args) =
      (callFaults env span target function args).map (Diagnostic.respan g) := by
  have hknown : (respanItems g args).map literal? = args.map literal? := by
    simp [respanItems_eq, Function.comp_def]
  have htypes : (respanItems g args).map describe = args.map describe := by
    simp [respanItems_eq, Function.comp_def]
  have htarget : (respanOptional g target).map literal? = target.map literal? := by
    cases target <;> simp [respanOptional]
  unfold callFaults
  cases env.functions.get? function with
  | none => rfl
  | some f =>
    simp only [hknown, htypes, htarget]
    split
    · rfl
    · cases target <;> simp [respanOptional, Diagnostic.respan]

mutual

/-- The check finds the same faults wherever a tree stands. -/
theorem faults_respan : ∀ (e : Expr) (bound : List String),
    faults env bound (e.respan g) = (faults env bound e).map (Diagnostic.respan g)
  | literal _ _, _ => rfl
  | ident span name, bound => by
    rw [respan, faults, faults, nameFaults, nameFaults]
    split <;> rfl
  | list _ items, bound => faultsOfItems_respan items bound
  | dict _ entries, bound => faultsOfEntries_respan entries bound
  | select _ operand _, bound | has _ operand _, bound | unary _ _ operand, bound =>
    faults_respan operand bound
  | index _ left right, bound | binary _ _ left right, bound
  | quantify _ _ left _ right, bound => by
    simp only [respan, faults, faults_respan left, faults_respan right, List.map_append]
  | call span target function args, bound => by
    simp only [respan, faults, faultsOfOptional_respan target, faultsOfItems_respan args,
      callFaults_respan, List.map_append]
  | collect _ range _ test image, bound => by
    simp only [respan, faults, faults_respan range, faultsOfOptional_respan test,
      faults_respan image, List.map_append]
  | conditional _ condition yes no, bound => by
    simp only [respan, faults, faults_respan condition, faults_respan yes, faults_respan no,
      List.map_append]

theorem faultsOfOptional_respan : ∀ (e : Option Expr) (bound : List String),
    faultsOfOptional env bound (respanOptional g e) =
      (faultsOfOptional env bound e).map (Diagnostic.respan g)
  | none, _ => rfl
  | some e, bound => faults_respan e bound

theorem faultsOfItems_respan : ∀ (items : List Expr) (bound : List String),
    faultsOfItems env bound (respanItems g items) =
      (faultsOfItems env bound items).map (Diagnostic.respan g)
  | [], _ => rfl
  | e :: rest, bound => by
    simp only [respanItems, faultsOfItems, faults_respan e, faultsOfItems_respan rest,
      List.map_append]

theorem faultsOfEntries_respan : ∀ (entries : List (Expr × Expr)) (bound : List String),
    faultsOfEntries env bound (respanEntries g entries) =
      (faultsOfEntries env bound entries).map (Diagnostic.respan g)
  | [], _ => rfl
  | (key, e) :: rest, bound => by
    simp only [respanEntries, faultsOfEntries, faults_respan key, faults_respan e,
      faultsOfEntries_respan rest, List.map_append]

end

/-- Names of types are resolved in a tree without places as in the tree with them. -/
theorem bare_resolveTypes (e : Expr) (bound : List String) :
    (resolveTypes env bound e).bare = resolveTypes env bound e.bare := by
  rw [bare_eq, bare_eq, respan_resolveTypes]

end Check

end Expr

end JsonTemplate
