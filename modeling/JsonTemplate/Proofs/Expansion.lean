/-
What an expansion does, told by the leaves of the tree. It fails with the first failure that the
policy raises and in no other case (`failure?_expandNode`); if it succeeds, the output has the
shape of the tree, with the entries of omitted expressions left out (`expandNode_adds`). So it is
the same wherever the expressions have the same outcomes (`expandNode_congr`).
-/
import Mathlib.Data.List.Forall2
import JsonTemplate.Template.Basic
import JsonTemplate.Proofs.Compilation

namespace JsonTemplate

/-- The failure of an expression that ends an expansion. A removal is none. -/
def ErrorPolicy.raised? (policy : ErrorPolicy) : Outcome Value → Option Failure
  | .error (.failed f) => if policy.raises f then some f else none
  | _ => none

/-- Whether an expression adds nothing to the output, and does not end the expansion either. -/
def ErrorPolicy.omits (policy : ErrorPolicy) : Outcome Value → Bool
  | .ok _ => false
  | .error .removed => true
  | .error (.failed f) => !policy.raises f

theorem ErrorPolicy.raised?_eq_some {policy : ErrorPolicy} {outcome : Outcome Value}
    {f : Failure} : policy.raised? outcome = some f ↔
      outcome = .error (.failed f) ∧ policy.raises f = true := by
  unfold raised?
  split
  · rename_i g
    by_cases hg : policy.raises g = true
    · simp only [hg, if_true, Option.some.injEq, Except.error.injEq, Interrupt.failed.injEq]
      exact ⟨fun h => ⟨h, h ▸ hg⟩, And.left⟩
    · simp only [hg, Bool.false_eq_true, if_false, reduceCtorEq, Except.error.injEq,
        Interrupt.failed.injEq, false_iff, not_and]
      exact fun h hf => hg (h ▸ hf)
  · rename_i hne
    simp only [reduceCtorEq, false_iff, not_and]
    exact fun h => absurd h (hne f)

theorem ErrorPolicy.raised?_eq_none {policy : ErrorPolicy} {outcome : Outcome Value} :
    policy.raised? outcome = none ↔
      ∀ f, outcome = .error (.failed f) → policy.raises f = false := by
  rw [Option.eq_none_iff_forall_ne_some]
  simp only [ne_eq, raised?_eq_some, not_and, Bool.not_eq_true]

namespace Tree

section Run

variable (policy : ErrorPolicy) (context : Context)

/-! ## Failing -/

/-- The failure of the first leaf whose failure the policy raises. -/
def firstRaised (leaves : List Leaf) : Option Failure :=
  leaves.findSome? fun leaf => policy.raised? (leaf.outcome context)

theorem failure?_settle (outcome : Outcome Value) :
    failure? (settle policy outcome) = policy.raised? outcome := by
  rcases outcome with (_ | f) | v
  · rfl
  · by_cases h : policy.raises f = true <;> simp [settle, ErrorPolicy.raised?, h, failure?]
  · rfl

mutual

/-- An expansion ends with the first failure that its policy raises. -/
theorem failure?_expandNode : ∀ (t : Tree) (origin : Origin),
    failure? (t.expandNode policy context origin) =
      firstRaised policy context (t.leaves origin)
  | literal _, _ => rfl
  | expression program, origin => by
    have h := failure?_settle policy (program.eval origin context)
    simp only [expandNode, h, leaves, firstRaised, List.findSome?_cons, List.findSome?_nil,
      Leaf.outcome]
    cases policy.raised? (program.eval origin context) <;> rfl
  | object entries, origin => by
    rw [leaves, ← failure?_expandEntries entries origin 0, expandNode]
    cases expandEntries policy context entries origin 0 <;> rfl
  | list items, origin => by
    rw [leaves, ← failure?_expandItems items origin 0, expandNode]
    cases expandItems policy context items origin 0 <;> rfl

theorem failure?_expandEntries : ∀ (entries : List (String × Tree)) (origin : Origin) (part : Nat),
    failure? (expandEntries policy context entries origin part) =
      firstRaised policy context (leavesOfEntries entries origin part)
  | [], _, _ => rfl
  | (key, t) :: rest, origin, part => by
    have hfirst := failure?_expandNode t (origin.child part)
    have hrest := failure?_expandEntries rest origin (part + 1)
    simp only [firstRaised] at hfirst hrest
    rw [expandEntries, failure?_seq, leavesOfEntries, firstRaised, List.findSome?_append, hfirst,
      hrest]

theorem failure?_expandItems : ∀ (items : List Tree) (origin : Origin) (part : Nat),
    failure? (expandItems policy context items origin part) =
      firstRaised policy context (leavesOfItems items origin part)
  | [], _, _ => rfl
  | t :: rest, origin, part => by
    have hfirst := failure?_expandNode t (origin.child part)
    have hrest := failure?_expandItems rest origin (part + 1)
    simp only [firstRaised] at hfirst hrest
    rw [expandItems, failure?_seq, leavesOfItems, firstRaised, List.findSome?_append, hfirst,
      hrest]

end

theorem failure?_expand (t : Tree) (origin : Origin) :
    failure? (t.expand policy context origin) = firstRaised policy context (t.leaves origin) := by
  rw [← failure?_expandNode, expand]
  cases t.expandNode policy context origin <;> rfl

theorem firstRaised_eq_some {leaves : List Leaf} {f : Failure} :
    firstRaised policy context leaves = some f ↔
      ∃ before leaf after, leaves = before ++ leaf :: after ∧
        leaf.outcome context = .error (.failed f) ∧ policy.raises f = true ∧
        ∀ l ∈ before, ∀ g, l.outcome context = .error (.failed g) → policy.raises g = false := by
  simp only [firstRaised, List.findSome?_eq_some_iff, ErrorPolicy.raised?_eq_some,
    ErrorPolicy.raised?_eq_none, and_assoc]

theorem firstRaised_eq_none {leaves : List Leaf} :
    firstRaised policy context leaves = none ↔
      ∀ leaf ∈ leaves, ∀ f, leaf.outcome context = .error (.failed f) →
        policy.raises f = false := by
  simp only [firstRaised, List.findSome?_eq_none_iff, ErrorPolicy.raised?_eq_none]

/-- An expansion fails with the failure of an expression that the policy raises. -/
theorem expand_eq_error {t : Tree} {origin : Origin} {f : Failure}
    (h : t.expand policy context origin = .error f) : ∃ leaf ∈ t.leaves origin,
      leaf.outcome context = .error (.failed f) ∧ policy.raises f = true := by
  rw [← failure?_eq_some, failure?_expand, firstRaised_eq_some] at h
  obtain ⟨before, leaf, after, hleaves, hfails, hraises, -⟩ := h
  exact ⟨leaf, hleaves ▸ List.mem_append_right _ List.mem_cons_self, hfails, hraises⟩

/-! ## Succeeding -/

/-- A tree whose expression adds nothing. Containers and constants are never left out. -/
def omitted (origin : Origin) : Tree → Bool
  | expression program => policy.omits (program.eval origin context)
  | _ => false

/-- Parts at their places, counted from `part`. -/
def placed {α : Type} (origin : Origin) (part : Nat) : List α → List (Origin × α)
  | [] => []
  | a :: rest => (origin.child part, a) :: placed origin (part + 1) rest

/-- The parts that are not left out, in order. -/
def kept {α : Type} (tree : α → Tree) (origin : Origin) (part : Nat) (parts : List α) :
    List (Origin × α) :=
  (placed origin part parts).filter fun p => !omitted policy context p.1 (tree p.2)

theorem kept_cons_of_omitted {α : Type} {tree : α → Tree} {origin : Origin} {part : Nat} {a : α}
    (h : omitted policy context (origin.child part) (tree a) = true) (rest : List α) :
    kept policy context tree origin part (a :: rest) =
      kept policy context tree origin (part + 1) rest := by
  simp [kept, placed, h]

theorem kept_cons_of_kept {α : Type} {tree : α → Tree} {origin : Origin} {part : Nat} {a : α}
    (h : omitted policy context (origin.child part) (tree a) = false) (rest : List α) :
    kept policy context tree origin part (a :: rest) =
      (origin.child part, a) :: kept policy context tree origin (part + 1) rest := by
  simp [kept, placed, h]

theorem kept_sublist {α : Type} (tree : α → Tree) (origin : Origin) :
    ∀ (part : Nat) (parts : List α),
      List.Sublist ((kept policy context tree origin part parts).map (·.2)) parts
  | _, [] => List.Sublist.slnil
  | part, a :: rest => by
    have ih := kept_sublist tree origin (part + 1) rest
    by_cases ho : omitted policy context (origin.child part) (tree a) = true
    · rw [kept_cons_of_omitted policy context ho]
      exact ih.cons a
    · rw [kept_cons_of_kept policy context (Bool.not_eq_true _ ▸ ho)]
      exact ih.cons_cons a

/-- The value that a tree at its place stands for: a constant itself, an expression what it
evaluates to, a container the values of its parts that are not left out. -/
inductive Output : Origin × Tree → Value → Prop
  | literal : Output (origin, .literal s) s.toValue
  | expression : program.eval origin context = .ok value →
      Output (origin, .expression program) value
  | object : Entries.keys out = (kept policy context (·.2) origin 0 entries).map (·.2.1) →
      List.Forall₂ Output ((kept policy context (·.2) origin 0 entries).map fun p => (p.1, p.2.2))
        (out.map (·.2)) →
      Output (origin, .object entries) (.record origin out)
  | list : List.Forall₂ Output (kept policy context id origin 0 items) out →
      Output (origin, .list items) (.list out)

/-- What a tree at its place adds to the output. -/
def Adds (origin : Origin) (t : Tree) (added : Option Value) : Prop :=
  if omitted policy context origin t then added = none
  else ∃ value, added = some value ∧ Output policy context (origin, t) value

theorem Adds.none_iff {origin : Origin} {t : Tree} :
    Adds policy context origin t none ↔ omitted policy context origin t = true := by
  unfold Adds
  split <;> simp_all

theorem Adds.some_iff {origin : Origin} {t : Tree} {value : Value} :
    Adds policy context origin t (some value) ↔
      omitted policy context origin t = false ∧ Output policy context (origin, t) value := by
  unfold Adds
  split <;> simp_all

theorem settle_ok {outcome : Outcome Value} {added : Option Value}
    (h : settle policy outcome = .ok added) :
    if policy.omits outcome then added = none
    else ∃ value, added = some value ∧ outcome = .ok value := by
  rcases outcome with (_ | f) | v
  · cases h; rfl
  · simp only [settle] at h
    split at h <;> cases h
    rename_i hf
    simp [ErrorPolicy.omits, hf]
  · cases h; exact ⟨v, rfl, rfl⟩

mutual

/-- An expansion that succeeds adds what the tree stands for. -/
theorem expandNode_adds : ∀ {t : Tree} {origin : Origin} {added : Option Value}, t.Distinct →
    t.expandNode policy context origin = .ok added → Adds policy context origin t added
  | literal s, _, _, _, h => by
    simp only [expandNode] at h
    cases h
    exact (Adds.some_iff ..).mpr ⟨rfl, .literal⟩
  | expression program, origin, added, _, h => by
    rw [expandNode] at h
    have hadded := settle_ok policy h
    by_cases ho : policy.omits (program.eval origin context) = true
    · rw [if_pos ho] at hadded
      subst hadded
      exact (Adds.none_iff ..).mpr ho
    · rw [if_neg ho] at hadded
      obtain ⟨value, rfl, hvalue⟩ := hadded
      exact (Adds.some_iff ..).mpr ⟨by simpa [omitted] using ho, .expression hvalue⟩
  | object entries, origin, _, hd, h => by
    simp only [expandNode, bind_eq_ok] at h
    obtain ⟨out, hout, h⟩ := h
    cases h
    simp only [Distinct] at hd
    obtain ⟨hkeys, hvalues⟩ := expandEntries_adds hd.2 hout
    have hdistinct : Entries.Distinct out := by
      unfold Entries.Distinct
      rw [hkeys]
      have hsub := (kept_sublist policy context (·.2) origin 0 entries).map (·.1)
      rw [List.map_map] at hsub
      exact hd.1.sublist hsub
    rw [Entries.ofPairs_of_distinct hdistinct]
    exact (Adds.some_iff ..).mpr ⟨rfl, .object hkeys hvalues⟩
  | list items, origin, _, hd, h => by
    simp only [expandNode, bind_eq_ok] at h
    obtain ⟨out, hout, h⟩ := h
    cases h
    exact (Adds.some_iff ..).mpr ⟨rfl, .list (expandItems_adds hd hout)⟩

theorem expandEntries_adds : ∀ {entries : List (String × Tree)} {origin : Origin} {part : Nat}
    {out : List (String × Value)}, DistinctEntries entries →
    expandEntries policy context entries origin part = .ok out →
    Entries.keys out = (kept policy context (·.2) origin part entries).map (·.2.1) ∧
      List.Forall₂ (Output policy context)
        ((kept policy context (·.2) origin part entries).map fun p => (p.1, p.2.2))
        (out.map (·.2))
  | [], _, _, _, _, h => by simp only [expandEntries] at h; cases h; exact ⟨rfl, .nil⟩
  | (key, t) :: rest, origin, part, _, hd, h => by
    simp only [expandEntries, bind_eq_ok] at h
    obtain ⟨first, hfirst, others, hothers, h⟩ := h
    obtain ⟨hkeys, hvalues⟩ := expandEntries_adds hd.2 hothers
    have hadds := expandNode_adds hd.1 hfirst
    rcases first with _ | value <;> cases h
    · rw [kept_cons_of_omitted policy context ((Adds.none_iff ..).mp hadds)]
      exact ⟨hkeys, hvalues⟩
    · obtain ⟨hkept, hvalue⟩ := (Adds.some_iff ..).mp hadds
      rw [kept_cons_of_kept policy context hkept]
      exact ⟨congrArg (key :: ·) hkeys, .cons hvalue hvalues⟩

theorem expandItems_adds : ∀ {items : List Tree} {origin : Origin} {part : Nat}
    {out : List Value}, DistinctItems items →
    expandItems policy context items origin part = .ok out →
    List.Forall₂ (Output policy context) (kept policy context id origin part items) out
  | [], _, _, _, _, h => by simp only [expandItems] at h; cases h; exact .nil
  | t :: rest, origin, part, _, hd, h => by
    simp only [expandItems, bind_eq_ok] at h
    obtain ⟨first, hfirst, others, hothers, h⟩ := h
    have hvalues := expandItems_adds hd.2 hothers
    have hadds := expandNode_adds hd.1 hfirst
    rcases first with _ | value <;> cases h
    · rw [kept_cons_of_omitted policy context ((Adds.none_iff ..).mp hadds)]
      exact hvalues
    · obtain ⟨hkept, hvalue⟩ := (Adds.some_iff ..).mp hadds
      rw [kept_cons_of_kept policy context hkept]
      exact .cons hvalue hvalues

end

/-- **An expansion fails with the first failure in document order that its policy raises**, and in
no other case; otherwise it gives what the tree stands for, null for an omitted expression. -/
theorem expand_fails_first_or_gives_output (t : Tree) (origin : Origin) (h : t.Distinct) :
    (∀ f, t.expand policy context origin = .error f ↔
      ∃ before leaf after, t.leaves origin = before ++ leaf :: after ∧
        leaf.outcome context = .error (.failed f) ∧ policy.raises f = true ∧
        ∀ l ∈ before, ∀ g, l.outcome context = .error (.failed g) → policy.raises g = false) ∧
    ((∀ leaf ∈ t.leaves origin, ∀ f, leaf.outcome context = .error (.failed f) →
        policy.raises f = false) →
      ∃ value, t.expand policy context origin = .ok value ∧
        if omitted policy context origin t then value = .null
        else Output policy context (origin, t) value) := by
  refine ⟨fun f => ?_, fun hnone => ?_⟩
  · rw [← failure?_eq_some, failure?_expand, firstRaised_eq_some]
  · rw [← firstRaised_eq_none, ← failure?_expandNode, failure?_eq_none] at hnone
    obtain ⟨added, hadded⟩ := hnone
    refine ⟨added.getD .null, by rw [expand, hadded]; rfl, ?_⟩
    have hadds := expandNode_adds policy context h hadded
    unfold Adds at hadds
    split
    · rename_i ho
      rw [if_pos ho] at hadds
      rw [hadds]
      rfl
    · rename_i ho
      rw [if_neg ho] at hadds
      obtain ⟨value, rfl, hvalue⟩ := hadds
      exact hvalue

end Run

/-- Nothing of this template ends an expansion when no failure is raised. -/
theorem expand_gives_output_of_lenient :
    ∃ t, compile (TemplateOptions.default.environment [])
        "\x7b\"a\": \"remove_property()\", \"b\": [\"1 / 0\", \x7b\"c\": null\x7d]\x7d" = .ok t ∧
      t.Distinct ∧
      ∃ value, t.expand ⟨false, false⟩ (fun _ => none) default = .ok value ∧
        if omitted ⟨false, false⟩ (fun _ => none) default t then value = .null
        else Output ⟨false, false⟩ (fun _ => none) (default, t) value := by
  obtain ⟨t, ht⟩ : ∃ t, compile (TemplateOptions.default.environment [])
      "\x7b\"a\": \"remove_property()\", \"b\": [\"1 / 0\", \x7b\"c\": null\x7d]\x7d" = .ok t :=
    failure?_eq_none.mp (by decide +kernel)
  have hd := compile_distinct ht
  exact ⟨t, ht, hd, (expand_fails_first_or_gives_output ⟨false, false⟩ _ t default hd).2
    fun _ _ _ _ => rfl⟩

/-! ## Other environments -/

section Within

variable {policy policy' : ErrorPolicy} {context context' : Context} {env : Environment}

/-- What an expression adds, it adds in another setting and under another policy too. -/
def Follows (policy policy' : ErrorPolicy) (context context' : Context) (env : Environment)
    (leaf : Leaf) : Prop :=
  ∀ added, settle policy (leaf.outcome context) = .ok added →
    settle policy' ((leaf.program.within env).eval leaf.origin context') = .ok added

mutual

theorem expandNode_within : ∀ {t : Tree} {origin : Origin} {added : Option Value},
    (∀ leaf ∈ t.leaves origin, Follows policy policy' context context' env leaf) →
    t.expandNode policy context origin = .ok added →
    (t.within env).expandNode policy' context' origin = .ok added
  | literal _, _, _, _, h => h
  | expression program, origin, added, hleaves, h =>
    hleaves ⟨origin, program⟩ (by simp [leaves]) added h
  | object entries, origin, _, hleaves, h => by
    rw [expandNode, bind_eq_ok] at h
    obtain ⟨out, hout, h⟩ := h
    rw [within, expandNode, expandEntries_within hleaves hout]
    exact h
  | list items, origin, _, hleaves, h => by
    rw [expandNode, bind_eq_ok] at h
    obtain ⟨out, hout, h⟩ := h
    rw [within, expandNode, expandItems_within hleaves hout]
    exact h

theorem expandEntries_within : ∀ {entries : List (String × Tree)} {origin : Origin} {part : Nat}
    {out : List (String × Value)},
    (∀ leaf ∈ leavesOfEntries entries origin part,
      Follows policy policy' context context' env leaf) →
    expandEntries policy context entries origin part = .ok out →
    expandEntries policy' context' (withinEntries env entries) origin part = .ok out
  | [], _, _, _, _, h => h
  | (_, _) :: _, _, _, _, hleaves, h => by
    rw [leavesOfEntries, List.forall_mem_append] at hleaves
    simp only [expandEntries, bind_eq_ok] at h
    obtain ⟨first, hfirst, others, hothers, h⟩ := h
    rw [withinEntries, expandEntries, expandNode_within hleaves.1 hfirst, ok_bind,
      expandEntries_within hleaves.2 hothers, ok_bind]
    exact h

theorem expandItems_within : ∀ {items : List Tree} {origin : Origin} {part : Nat}
    {out : List Value},
    (∀ leaf ∈ leavesOfItems items origin part,
      Follows policy policy' context context' env leaf) →
    expandItems policy context items origin part = .ok out →
    expandItems policy' context' (withinItems env items) origin part = .ok out
  | [], _, _, _, _, h => h
  | _ :: _, _, _, _, hleaves, h => by
    rw [leavesOfItems, List.forall_mem_append] at hleaves
    simp only [expandItems, bind_eq_ok] at h
    obtain ⟨first, hfirst, others, hothers, h⟩ := h
    rw [withinItems, expandItems, expandNode_within hleaves.1 hfirst, ok_bind,
      expandItems_within hleaves.2 hothers, ok_bind]
    exact h

end

/-- An expansion that succeeds gives the same where every expression adds the same. -/
theorem expand_within {t : Tree} {origin : Origin} {value : Value}
    (hleaves : ∀ leaf ∈ t.leaves origin, Follows policy policy' context context' env leaf)
    (h : t.expand policy context origin = .ok value) :
    (t.within env).expand policy' context' origin = .ok value := by
  rw [expand, bind_eq_ok] at h
  obtain ⟨added, hadded, h⟩ := h
  rw [expand, expandNode_within hleaves hadded]
  exact h

end Within

mutual

/-- The expressions stay at their places in another environment. -/
theorem leaves_within (env : Environment) : ∀ (t : Tree) (origin : Origin),
    (t.within env).leaves origin =
      (t.leaves origin).map fun leaf => ⟨leaf.origin, leaf.program.within env⟩
  | literal _, _ => rfl
  | expression _, _ => rfl
  | object entries, origin => leavesOfEntries_within env entries origin 0
  | list items, origin => leavesOfItems_within env items origin 0

theorem leavesOfEntries_within (env : Environment) : ∀ (entries : List (String × Tree))
    (origin : Origin) (part : Nat), leavesOfEntries (withinEntries env entries) origin part =
      (leavesOfEntries entries origin part).map fun leaf =>
        ⟨leaf.origin, leaf.program.within env⟩
  | [], _, _ => rfl
  | (_, t) :: rest, origin, part => by
    rw [withinEntries, leavesOfEntries, leavesOfEntries, List.map_append, leaves_within env t,
      leavesOfEntries_within env rest]

theorem leavesOfItems_within (env : Environment) : ∀ (items : List Tree)
    (origin : Origin) (part : Nat), leavesOfItems (withinItems env items) origin part =
      (leavesOfItems items origin part).map fun leaf => ⟨leaf.origin, leaf.program.within env⟩
  | [], _, _ => rfl
  | t :: rest, origin, part => by
    rw [withinItems, leavesOfItems, leavesOfItems, List.map_append, leaves_within env t,
      leavesOfItems_within env rest]

end

/-- **A tree adds the same in another setting** where its expressions have the same outcomes. -/
theorem expandNode_congr {policy : ErrorPolicy} {context context' : Context} {env : Environment}
    {t : Tree} {origin : Origin} (h : ∀ leaf ∈ t.leaves origin,
      (leaf.program.within env).eval leaf.origin context' = leaf.outcome context) :
    (t.within env).expandNode policy context' origin = t.expandNode policy context origin := by
  cases hexpand : t.expandNode policy context origin with
  | ok added =>
    refine expandNode_within (fun leaf hleaf added hadded => ?_) hexpand
    rw [h leaf hleaf]
    exact hadded
  | error f =>
    -- Both end with the first failure of their expressions that the policy raises.
    have houtcomes : ((t.within env).leaves origin).map (·.outcome context') =
        (t.leaves origin).map (·.outcome context) := by
      rw [leaves_within, List.map_map]
      exact List.map_congr_left h
    have hfirst (context : Context) (leaves : List Leaf) : firstRaised policy context leaves =
        (leaves.map (·.outcome context)).findSome? policy.raised? := by
      rw [List.findSome?_map]
      rfl
    rw [← failure?_eq_some, failure?_expandNode] at hexpand ⊢
    rw [← hexpand, hfirst, hfirst, houtcomes]

end Tree

end JsonTemplate
