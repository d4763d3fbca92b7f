/-
Flattening. Levels of lists are taken away one by one from the outside, so depths add up
(`flattenItems_flattenItems`), the values that are no lists stay as they are and in order
(`leavesOfItems_flattenItems`), and the nesting goes down by the depth
(`nestingOfItems_flattenItems`): when it is used up no list is left.
-/
import JsonTemplate.Proofs.Operands

namespace JsonTemplate

namespace Value

/-! ## Nested lists -/

mutual

/-- The values in a value that are no lists, from the left. -/
def leaves : Value → List Value
  | list items => leavesOfItems items
  | other => [other]

def leavesOfItems : List Value → List Value
  | [] => []
  | v :: rest => v.leaves ++ leavesOfItems rest

end

mutual

/-- How many lists a value is inside of one another; maps and objects are not looked into. -/
def nesting : Value → Nat
  | list items => nestingOfItems items + 1
  | _ => 0

/-- How many lists stand inside of one another in a list. -/
def nestingOfItems : List Value → Nat
  | [] => 0
  | v :: rest => max v.nesting (nestingOfItems rest)

end

theorem leavesOfItems_eq (items : List Value) : leavesOfItems items = items.flatMap leaves := by
  induction items with
  | nil => rfl
  | cons v rest ih => rw [leavesOfItems, List.flatMap_cons, ih]

theorem leavesOfItems_append (items others : List Value) :
    leavesOfItems (items ++ others) = leavesOfItems items ++ leavesOfItems others := by
  simp only [leavesOfItems_eq, List.flatMap_append]

theorem nestingOfItems_append (items others : List Value) :
    nestingOfItems (items ++ others) = max (nestingOfItems items) (nestingOfItems others) := by
  induction items with
  | nil => simp [nestingOfItems]
  | cons v rest ih => rw [List.cons_append, nestingOfItems, nestingOfItems, ih, Nat.max_assoc]

theorem nesting_eq_zero {v : Value} : v.nesting = 0 ↔ ∀ inner, v ≠ list inner := by
  cases v <;> simp [nesting]

theorem nestingOfItems_eq_zero {items : List Value} :
    nestingOfItems items = 0 ↔ ∀ v ∈ items, ∀ inner, v ≠ list inner := by
  induction items with
  | nil => simp [nestingOfItems]
  | cons v rest ih =>
    rw [nestingOfItems, List.forall_mem_cons, ← ih, ← nesting_eq_zero]
    omega

/-- A list without lists is its leaves. -/
theorem leavesOfItems_of_flat {items : List Value} (h : ∀ v ∈ items, ∀ inner, v ≠ list inner) :
    leavesOfItems items = items := by
  induction items with
  | nil => rfl
  | cons v rest ih =>
    rw [List.forall_mem_cons] at h
    have hv : v.leaves = [v] := by
      cases v with
      | list inner => exact absurd rfl (h.1 inner)
      | _ => rfl
    rw [leavesOfItems, hv, ih h.2, List.singleton_append]

end Value

namespace Standard

open Value (leavesOfItems nestingOfItems)

/-! ## Items one by one -/

theorem flattenItems_zero (items : List Value) : flattenItems 0 items = items := by
  rw [flattenItems]

theorem flattenItems_nil (depth : Nat) : flattenItems depth [] = [] := by
  cases depth <;> rfl

theorem flattenItems_append (depth : Nat) (items others : List Value) :
    flattenItems depth (items ++ others) =
      flattenItems depth items ++ flattenItems depth others := by
  cases depth with
  | zero => simp only [flattenItems_zero]
  | succ depth => simp only [flattenItems, List.flatMap_append]

/-- A list among the items gives its own items, flattened one level less. -/
theorem flattenItems_list (depth : Nat) (inner rest : List Value) :
    flattenItems (depth + 1) (.list inner :: rest) =
      flattenItems depth inner ++ flattenItems (depth + 1) rest := by
  rw [flattenItems, flattenItems, List.flatMap_cons]

theorem flattenItems_leaf (depth : Nat) {v : Value} (h : ∀ inner, v ≠ .list inner)
    (rest : List Value) : flattenItems depth (v :: rest) = v :: flattenItems depth rest := by
  cases depth with
  | zero => simp only [flattenItems_zero]
  | succ depth =>
    cases v with
    | list inner => exact absurd rfl (h inner)
    | _ => rfl

/-- A statement about flattening holds if it goes from the items of a list, one level less, and from
the items after it to both of them. -/
theorem flattenItems_induction {motive : Nat → List Value → Prop}
    (zero : ∀ items, motive 0 items) (nil : ∀ depth, motive (depth + 1) [])
    (list : ∀ depth inner rest, motive depth inner → motive (depth + 1) rest →
      motive (depth + 1) (.list inner :: rest))
    (leaf : ∀ depth v rest, (∀ inner, v ≠ .list inner) → motive (depth + 1) rest →
      motive (depth + 1) (v :: rest)) (depth : Nat) (items : List Value) : motive depth items := by
  induction depth generalizing items with
  | zero => exact zero items
  | succ depth ih =>
    induction items with
    | nil => exact nil depth
    | cons v rest ihRest =>
      by_cases hv : ∃ inner, v = .list inner
      · obtain ⟨inner, rfl⟩ := hv
        exact list depth inner rest (ih inner) ihRest
      · exact leaf depth v rest (fun inner h => hv ⟨inner, h⟩) ihRest

/-! ## Depths -/

/-- Depths add up. -/
theorem flattenItems_flattenItems (m n : Nat) (items : List Value) :
    flattenItems n (flattenItems m items) = flattenItems (m + n) items := by
  induction m, items using flattenItems_induction with
  | zero items => rw [flattenItems_zero, Nat.zero_add]
  | nil m => simp only [flattenItems_nil]
  | list m inner rest ih ihRest =>
    rw [Nat.add_right_comm] at ihRest ⊢
    rw [flattenItems_list, flattenItems_append, ih, ihRest, flattenItems_list]
  | leaf m v rest hv ihRest =>
    rw [flattenItems_leaf _ hv, flattenItems_leaf _ hv, ihRest, flattenItems_leaf _ hv]

theorem leavesOfItems_flattenItems (depth : Nat) (items : List Value) :
    leavesOfItems (flattenItems depth items) = leavesOfItems items := by
  induction depth, items using flattenItems_induction with
  | zero items => rw [flattenItems_zero]
  | nil depth => rw [flattenItems_nil]
  | list depth inner rest ih ihRest =>
    rw [flattenItems_list, Value.leavesOfItems_append, ih, ihRest, leavesOfItems, Value.leaves]
  | leaf depth v rest hv ihRest =>
    rw [flattenItems_leaf _ hv, leavesOfItems, leavesOfItems, ihRest]

/-- The depth is taken off the nesting, as far as that goes. -/
theorem nestingOfItems_flattenItems (depth : Nat) (items : List Value) :
    nestingOfItems (flattenItems depth items) = nestingOfItems items - depth := by
  induction depth, items using flattenItems_induction with
  | zero items => rw [flattenItems_zero, Nat.sub_zero]
  | nil depth => simp [flattenItems_nil, nestingOfItems]
  | list depth inner rest ih ihRest =>
    rw [flattenItems_list, Value.nestingOfItems_append, ih, ihRest, nestingOfItems, Value.nesting]
    omega
  | leaf depth v rest hv ihRest =>
    rw [flattenItems_leaf _ hv, nestingOfItems, nestingOfItems, ihRest,
      Value.nesting_eq_zero.mpr hv, Nat.zero_max, Nat.zero_max]

/-- No list is left exactly if the depth is at least the nesting. -/
theorem flattenItems_flat_iff {depth : Nat} {items : List Value} :
    (∀ v ∈ flattenItems depth items, ∀ inner, v ≠ .list inner) ↔ nestingOfItems items ≤ depth := by
  rw [← Value.nestingOfItems_eq_zero, nestingOfItems_flattenItems, Nat.sub_eq_zero_iff_le]

/-- Then the leaves are left. -/
theorem flattenItems_of_nesting_le {depth : Nat} {items : List Value}
    (h : nestingOfItems items ≤ depth) : flattenItems depth items = leavesOfItems items := by
  rw [← leavesOfItems_flattenItems depth, Value.leavesOfItems_of_flat (flattenItems_flat_iff.mpr h)]

/-! ## Calls -/

/-- A list nested no deeper than the greatest position is flattened by any depth as it is given. -/
theorem flatten_of_depth {items : List Value} (hnesting : nestingOfItems items ≤ maxPosition)
    {n : Binary64} {depth : Nat} (h : n.toInt? = some (depth : Int)) :
    flatten (some (.list items)) [.number n] = .ok (.list (flattenItems depth items)) := by
  have hread : position (some (.number n)) = .ok (min depth maxPosition) := by
    rcases position_number n with ⟨k, hk, hread⟩ | ⟨hk, -⟩
    · rw [h, Option.some.injEq, Int.natCast_inj] at hk
      rw [hread, hk]
    · exact absurd h (hk depth)
  have hflat : flattenItems (min depth maxPosition) items = flattenItems depth items := by
    rcases Nat.le_total depth maxPosition with hle | hle
    · rw [Nat.min_eq_left hle]
    · rw [Nat.min_eq_right hle, flattenItems_of_nesting_le hnesting,
        flattenItems_of_nesting_le (Nat.le_trans hnesting hle)]
  have hflatten := flatten_eq items (some n)
  simp only [Option.map_some, Option.toList_some, hread, ok_bind, pure_eq_ok, hflat] at hflatten
  exact hflatten

end Standard

open Standard (flattenItems flattening)
open Value (leavesOfItems nestingOfItems)

/-- **Depths of flattening add up and nothing is lost.** Flattening by `m` and then by `n` is
flattening by `m + n`, and by zero it changes nothing. The values that are no lists stay and keep
their order; no list is left among the items exactly if the depth is at least their nesting, and
then the items are those values. A call of `flatten` flattens by the depth that it is given, or by
one; no list is nested deeper than the greatest position. -/
theorem flattening_adds_depths (items : List Value) :
    (∀ m n, flattenItems n (flattenItems m items) = flattenItems (m + n) items) ∧
    flattenItems 0 items = items ∧
    (∀ depth, leavesOfItems (flattenItems depth items) = leavesOfItems items) ∧
    (∀ depth, (∀ v ∈ flattenItems depth items, ∀ inner, v ≠ .list inner) ↔
      nestingOfItems items ≤ depth) ∧
    (∀ depth, nestingOfItems items ≤ depth → flattenItems depth items = leavesOfItems items) ∧
    ∀ env : Environment, env.Provides flattening → ∀ origin,
      env.call "flatten" origin (some (.list items)) [] = .ok (.list (flattenItems 1 items)) ∧
      (nestingOfItems items ≤ Standard.maxPosition →
        ∀ (n : Binary64) (depth : Nat), n.toInt? = some (depth : Int) →
        env.call "flatten" origin (some (.list items)) [.number n] =
          .ok (.list (flattenItems depth items))) := by
  refine ⟨fun m n => Standard.flattenItems_flattenItems m n items,
    Standard.flattenItems_zero items, fun depth => Standard.leavesOfItems_flattenItems depth items,
    fun depth => Standard.flattenItems_flat_iff,
    fun depth => Standard.flattenItems_of_nesting_le, fun env hget origin => ⟨?_, ?_⟩⟩
  · exact hget.call_eq (.flattening items none) origin
  · intro hnesting n depth hdepth
    exact (hget.call_eq (.flattening items (some n)) origin).trans
      (Standard.flatten_of_depth hnesting hdepth)

/-- `[1, [2, [3]]].flatten(2)` is `[1, [2, [3]]].flatten()` flattened by one more level. -/
theorem flattening_adds_depths_of_nested :
    let items : List Value := [.ofNat 1, .list [.ofNat 2, .list [.ofNat 3]]]
    Environment.standard.call "flatten" default (some (.list items)) [.ofNat 2] =
      .ok (.list (flattenItems 1 (flattenItems 1 items))) := by
  intro items
  obtain ⟨hadd, -, -, -, -, hcall⟩ := flattening_adds_depths items
  rw [hadd]
  exact (hcall .standard (by rfl) default).2 (by decide +kernel) (.ofNat 2) 2 (by decide +kernel)

end JsonTemplate
