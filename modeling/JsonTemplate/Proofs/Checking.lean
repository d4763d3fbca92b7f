/-
Checking in another environment. An environment that declares the same of the names at hand, knows
the same types and takes the same calls (`Covers`) finds no fault where another finds none, and
compiles what the other compiles to the same expression (`compile_of_covers`).
-/
import JsonTemplate.Proofs.Compilation
import JsonTemplate.Proofs.Names

namespace JsonTemplate

/-- What one environment takes, the other takes in the same way, as far as the names in `free`
go; those in `bound` belong to loops. -/
structure Covers (env env' : Environment) (bound free : List String) : Prop where
  reject : env'.rejectUndeclared = true → env.rejectUndeclared = true
  types : env'.types = env.types
  declared : ∀ x ∈ free, x ∈ bound ∨ env'.declared.contains x = env.declared.contains x
  function : ∀ name f, env.functions.get? name = some f →
    ∃ f', env'.functions.get? name = some f' ∧ f'.signature = f.signature

namespace Covers

variable {env env' : Environment} {bound free free' : List String}

theorem mono (h : Covers env env' bound free) (hfree : free' ⊆ free) :
    Covers env env' bound free' :=
  ⟨h.reject, h.types, fun x hmem => h.declared x (hfree hmem), h.function⟩

theorem bind {name : String} (h : Covers env env' bound (free.filter (· ≠ name))) :
    Covers env env' (name :: bound) free := by
  refine ⟨h.reject, h.types, fun x hmem => ?_, h.function⟩
  by_cases hx : x = name
  · exact .inl (hx ▸ List.mem_cons_self)
  · exact (h.declared x (by simp [hmem, hx])).imp_left (List.mem_cons_of_mem _)

/-- A name is bound or declared in both environments or in neither. -/
theorem known {name : String} (h : Covers env env' bound [name]) :
    (bound.contains name || env'.declared.contains name) =
      (bound.contains name || env.declared.contains name) := by
  rcases h.declared name (by simp) with hname | hname
  · rw [List.contains_iff_mem.mpr hname, Bool.true_or, Bool.true_or]
  · rw [hname]

end Covers

namespace Expr

section Covered

variable {env env' : Environment}

/-! ## Names of types -/

mutual

/-- The names of types are resolved alike. -/
theorem resolveTypes_congr : ∀ (e : Expr) {bound : List String}, Covers env env' bound e.free →
    resolveTypes env' bound e = resolveTypes env bound e
  | literal _ _, _, _ => rfl
  | list _ items, _, h => by rw [resolveTypes, resolveTypes, resolveItems_congr items h]
  | dict _ entries, _, h => by rw [resolveTypes, resolveTypes, resolveEntries_congr entries h]
  | ident _ name, _, h => by
    rw [resolveTypes, resolveTypes, resolveName, resolveName, h.known, h.types]
  | select _ operand _, _, h => by rw [resolveTypes, resolveTypes, resolveTypes_congr operand h]
  | index _ operand i, _, h => by
    rw [resolveTypes, resolveTypes, resolveTypes_congr operand (h.mono (by simp [free])),
      resolveTypes_congr i (h.mono (by simp [free]))]
  | call _ target _ args, _, h => by
    rw [resolveTypes, resolveTypes, resolveOptional_congr target (h.mono (by simp [free])),
      resolveItems_congr args (h.mono (by simp [free]))]
  | has _ operand _, _, h => by rw [resolveTypes, resolveTypes, resolveTypes_congr operand h]
  | quantify _ _ range name test, bound, h => by
    have htest : resolveTypes env' (name :: bound) test = resolveTypes env (name :: bound) test :=
      resolveTypes_congr test (h.mono (by simp [free])).bind
    rw [resolveTypes, resolveTypes, resolveTypes_congr range (h.mono (by simp [free])), htest]
  | collect _ range name test image, bound, h => by
    have htest : resolveOptional env' (name :: bound) test =
        resolveOptional env (name :: bound) test :=
      resolveOptional_congr test (h.mono (by simp [free])).bind
    have himage : resolveTypes env' (name :: bound) image =
        resolveTypes env (name :: bound) image :=
      resolveTypes_congr image (h.mono (by simp [free])).bind
    rw [resolveTypes, resolveTypes, resolveTypes_congr range (h.mono (by simp [free])), htest,
      himage]
  | conditional _ condition yes no, _, h => by
    rw [resolveTypes, resolveTypes, resolveTypes_congr condition (h.mono (by simp [free])),
      resolveTypes_congr yes (h.mono (by simp [free])),
      resolveTypes_congr no (h.mono (by simp [free]))]
  | binary _ _ left right, _, h => by
    rw [resolveTypes, resolveTypes, resolveTypes_congr left (h.mono (by simp [free])),
      resolveTypes_congr right (h.mono (by simp [free]))]
  | unary _ _ operand, _, h => by rw [resolveTypes, resolveTypes, resolveTypes_congr operand h]

theorem resolveOptional_congr : ∀ (e : Option Expr) {bound : List String},
    Covers env env' bound (freeOptional e) →
      resolveOptional env' bound e = resolveOptional env bound e
  | none, _, _ => rfl
  | some e, _, h => by rw [resolveOptional, resolveOptional, resolveTypes_congr e h]

theorem resolveItems_congr : ∀ (items : List Expr) {bound : List String},
    Covers env env' bound (freeItems items) →
      resolveItems env' bound items = resolveItems env bound items
  | [], _, _ => rfl
  | e :: rest, _, h => by
    rw [resolveItems, resolveItems, resolveTypes_congr e (h.mono (by simp [freeItems])),
      resolveItems_congr rest (h.mono (by simp [freeItems]))]

theorem resolveEntries_congr : ∀ (entries : List (Expr × Expr)) {bound : List String},
    Covers env env' bound (freeEntries entries) →
      resolveEntries env' bound entries = resolveEntries env bound entries
  | [], _, _ => rfl
  | (key, e) :: rest, _, h => by
    rw [resolveEntries, resolveEntries, resolveTypes_congr key (h.mono (by simp [freeEntries])),
      resolveTypes_congr e (h.mono (by simp [freeEntries])),
      resolveEntries_congr rest (h.mono (by simp [freeEntries]))]

end

theorem append_subset_append {as as' bs bs' : List String} (h : as ⊆ as') (h' : bs ⊆ bs') :
    as ++ bs ⊆ as' ++ bs' :=
  List.append_subset.mpr ⟨List.subset_append_of_subset_left _ h,
    List.subset_append_of_subset_right _ h'⟩

mutual

/-- No name becomes free when the names of types are resolved. -/
theorem free_resolveTypes : ∀ (e : Expr) {bound : List String},
    (resolveTypes env bound e).free ⊆ e.free
  | literal _ _, _ => List.Subset.refl _
  | list _ items, _ => free_resolveItems items
  | dict _ entries, _ => free_resolveEntries entries
  | ident span name, bound => by
    rw [resolveTypes, resolveName]
    split
    · exact List.Subset.refl _
    · split
      · exact List.nil_subset _
      · exact List.Subset.refl _
  | select _ operand _, _ => free_resolveTypes operand
  | index _ operand i, _ => append_subset_append (free_resolveTypes operand) (free_resolveTypes i)
  | call _ target _ args, _ =>
    append_subset_append (free_resolveOptional target) (free_resolveItems args)
  | has _ operand _, _ => free_resolveTypes operand
  | quantify _ _ range _ test, _ =>
    append_subset_append (free_resolveTypes range) (List.filter_subset _ (free_resolveTypes test))
  | collect _ range _ test image, _ =>
    append_subset_append (free_resolveTypes range) (List.filter_subset _
      (append_subset_append (free_resolveOptional test) (free_resolveTypes image)))
  | conditional _ condition yes no, _ =>
    append_subset_append
      (append_subset_append (free_resolveTypes condition) (free_resolveTypes yes))
      (free_resolveTypes no)
  | binary _ _ left right, _ =>
    append_subset_append (free_resolveTypes left) (free_resolveTypes right)
  | unary _ _ operand, _ => free_resolveTypes operand

theorem free_resolveOptional : ∀ (e : Option Expr) {bound : List String},
    freeOptional (resolveOptional env bound e) ⊆ freeOptional e
  | none, _ => List.Subset.refl _
  | some e, _ => free_resolveTypes e

theorem free_resolveItems : ∀ (items : List Expr) {bound : List String},
    freeItems (resolveItems env bound items) ⊆ freeItems items
  | [], _ => List.Subset.refl _
  | e :: rest, _ => append_subset_append (free_resolveTypes e) (free_resolveItems rest)

theorem free_resolveEntries : ∀ (entries : List (Expr × Expr)) {bound : List String},
    freeEntries (resolveEntries env bound entries) ⊆ freeEntries entries
  | [], _ => List.Subset.refl _
  | (key, e) :: rest, _ =>
    append_subset_append
      (append_subset_append (free_resolveTypes key) (free_resolveTypes e))
      (free_resolveEntries rest)

end

/-! ## Faults -/

theorem callFaults_nil {bound free : List String} (h : Covers env env' bound free) {span : Span}
    {target : Option Expr} {function : String} {args : List Expr}
    (hnil : callFaults env span target function args = []) :
    callFaults env' span target function args = [] := by
  unfold callFaults at hnil ⊢
  split at hnil
  · cases hnil
  · rename_i f hget
    obtain ⟨f', hget', hsignature⟩ := h.function function f hget
    rw [hget']
    dsimp only
    rw [hsignature]
    split at hnil
    · rename_i haccept
      rw [if_pos haccept]
    · cases hnil

theorem nameFaults_nil {bound : List String} {span : Span} {name : String}
    (h : Covers env env' bound [name]) (hnil : nameFaults env bound span name = []) :
    nameFaults env' bound span name = [] := by
  unfold nameFaults at hnil ⊢
  split at hnil
  · rename_i hname
    rw [if_pos]
    rw [h.known]
    simp only [Bool.or_eq_true, Bool.not_eq_true'] at hname ⊢
    exact hname.imp_right fun hreject => Bool.eq_false_iff.mpr fun hreject' =>
      Bool.eq_false_iff.mp hreject (h.reject hreject')
  · cases hnil

mutual

/-- No fault is found that was not there before. -/
theorem faults_nil_of_covers : ∀ (e : Expr) {bound : List String}, Covers env env' bound e.free →
    faults env bound e = [] → faults env' bound e = []
  | literal _ _, _, _, _ => rfl
  | list _ items, _, h, hnil => faultsOfItems_nil_of_covers items h hnil
  | dict _ entries, _, h, hnil => faultsOfEntries_nil_of_covers entries h hnil
  | ident _ _, _, h, hnil => nameFaults_nil h hnil
  | select _ operand _, _, h, hnil => faults_nil_of_covers operand h hnil
  | index _ operand i, _, h, hnil => by
    simp only [faults, List.append_eq_nil_iff] at hnil ⊢
    exact ⟨faults_nil_of_covers operand (h.mono (by simp [free])) hnil.1,
      faults_nil_of_covers i (h.mono (by simp [free])) hnil.2⟩
  | call _ target function args, _, h, hnil => by
    simp only [faults, List.append_eq_nil_iff] at hnil ⊢
    exact ⟨⟨faultsOfOptional_nil_of_covers target (h.mono (by simp [free])) hnil.1.1,
      faultsOfItems_nil_of_covers args (h.mono (by simp [free])) hnil.1.2⟩,
      callFaults_nil h hnil.2⟩
  | has _ operand _, _, h, hnil => faults_nil_of_covers operand h hnil
  | quantify _ _ range name test, _, h, hnil => by
    simp only [faults, List.append_eq_nil_iff] at hnil ⊢
    exact ⟨faults_nil_of_covers range (h.mono (by simp [free])) hnil.1,
      faults_nil_of_covers test (h.mono (by simp [free])).bind hnil.2⟩
  | collect _ range name test image, _, h, hnil => by
    simp only [faults, List.append_eq_nil_iff] at hnil ⊢
    exact ⟨⟨faults_nil_of_covers range (h.mono (by simp [free])) hnil.1.1,
      faultsOfOptional_nil_of_covers test (h.mono (by simp [free])).bind hnil.1.2⟩,
      faults_nil_of_covers image (h.mono (by simp [free])).bind hnil.2⟩
  | conditional _ condition yes no, _, h, hnil => by
    simp only [faults, List.append_eq_nil_iff] at hnil ⊢
    exact ⟨⟨faults_nil_of_covers condition (h.mono (by simp [free])) hnil.1.1,
      faults_nil_of_covers yes (h.mono (by simp [free])) hnil.1.2⟩,
      faults_nil_of_covers no (h.mono (by simp [free])) hnil.2⟩
  | binary _ _ left right, _, h, hnil => by
    simp only [faults, List.append_eq_nil_iff] at hnil ⊢
    exact ⟨faults_nil_of_covers left (h.mono (by simp [free])) hnil.1,
      faults_nil_of_covers right (h.mono (by simp [free])) hnil.2⟩
  | unary _ _ operand, _, h, hnil => faults_nil_of_covers operand h hnil

theorem faultsOfOptional_nil_of_covers : ∀ (e : Option Expr) {bound : List String},
    Covers env env' bound (freeOptional e) → faultsOfOptional env bound e = [] →
      faultsOfOptional env' bound e = []
  | none, _, _, _ => rfl
  | some e, _, h, hnil => faults_nil_of_covers e h hnil

theorem faultsOfItems_nil_of_covers : ∀ (items : List Expr) {bound : List String},
    Covers env env' bound (freeItems items) → faultsOfItems env bound items = [] →
      faultsOfItems env' bound items = []
  | [], _, _, _ => rfl
  | e :: rest, _, h, hnil => by
    simp only [faultsOfItems, List.append_eq_nil_iff] at hnil ⊢
    exact ⟨faults_nil_of_covers e (h.mono (by simp [freeItems])) hnil.1,
      faultsOfItems_nil_of_covers rest (h.mono (by simp [freeItems])) hnil.2⟩

theorem faultsOfEntries_nil_of_covers : ∀ (entries : List (Expr × Expr)) {bound : List String},
    Covers env env' bound (freeEntries entries) → faultsOfEntries env bound entries = [] →
      faultsOfEntries env' bound entries = []
  | [], _, _, _ => rfl
  | (key, e) :: rest, _, h, hnil => by
    simp only [faultsOfEntries, List.append_eq_nil_iff] at hnil ⊢
    exact ⟨⟨faults_nil_of_covers key (h.mono (by simp [freeEntries])) hnil.1.1,
      faults_nil_of_covers e (h.mono (by simp [freeEntries])) hnil.1.2⟩,
      faultsOfEntries_nil_of_covers rest (h.mono (by simp [freeEntries])) hnil.2⟩

end

end Covered

end Expr

namespace Environment

variable {env env' : Environment} {source : String} {p : Program}

/-- An expression compiles to the same program in an environment that takes its names alike. -/
theorem compile_of_covers
    (hcovers : ∀ e, Expr.parse source = .ok e → Covers env env' [] e.free)
    (h : env.compile source = .ok p) : env'.compile source = .ok (p.within env') := by
  obtain ⟨e, hparse, hfaults, rfl⟩ := compile_eq_ok.mp h
  have hresolve := Expr.resolveTypes_congr e (hcovers e hparse)
  refine compile_eq_ok.mpr ⟨e, hparse, ?_, by rw [hresolve]; rfl⟩
  rw [hresolve]
  exact Expr.faults_nil_of_covers _ ((hcovers e hparse).mono (Expr.free_resolveTypes e)) hfaults

end Environment

end JsonTemplate
