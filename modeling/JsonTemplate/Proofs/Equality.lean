/-
Equality of values as a relation. Maps are compared as tables, entry by entry, and since no key
stands twice in either of two maps of one size, each entry of the one has its own in the other:
equality is symmetric (`Value.equal_comm`) and does not see the order of entries
(`Value.equal_of_reordered`). Only a NaN is not equal to itself, and so is what holds one
(`Value.equal_self_iff`).
-/
import JsonTemplate.Value.Basic
import Mathlib.Data.List.Forall2
import Mathlib.Data.List.Perm.Subperm

namespace JsonTemplate

/-! ## Numbers -/

namespace Binary64

theorem equal_comm (x y : Binary64) : x.equal y = y.equal x := by
  unfold equal
  cases x.rank? <;> cases y.rank? <;> simp [Bool.beq_comm]

theorem equal_trans {x y z : Binary64} (hxy : x.equal y = true) (hyz : y.equal z = true) :
    x.equal z = true := by
  unfold equal at *
  cases hx : x.rank? <;> cases hy : y.rank? <;> cases hz : z.rank? <;> simp_all

theorem equal_self_iff {x : Binary64} : x.equal x = true ↔ x ≠ .nan := by
  cases x <;> simp [equal, rank?]

end Binary64

/-! ## Entries -/

namespace Entries

variable {α β : Type}

/-- Of two tables of one size the second has no more keys than the first, if it has all of its
keys. -/
theorem keys_subset_of_length {entries : Entries α} {others : Entries β}
    (hdistinct : entries.Distinct) (hlength : entries.length = others.length)
    (hkeys : entries.keys ⊆ others.keys) : others.keys ⊆ entries.keys := by
  have hperm : entries.keys.Perm others.keys := by
    refine (List.subperm_of_subset hdistinct hkeys).perm_of_length_le ?_
    simp [keys, hlength]
  exact hperm.symm.subset

theorem Distinct.perm {entries others : Entries α} (h : entries.Distinct)
    (hperm : entries.Perm others) : others.Distinct := by
  unfold Distinct keys at *
  exact (hperm.map _).nodup_iff.mp h

end Entries

namespace Value

/-! ## Inside a value -/

/-- What is reached from a value through lists and the values of maps, first of all the value
itself. What an object holds is not. -/
inductive Reached (w : Value) : Value → Prop
  | self : Reached w w
  | item {v : Value} {items : List Value} : Reached w v → v ∈ items → Reached w (.list items)
  | entry {pair : String × Value} {entries : List (String × Value)} :
      Reached w pair.2 → pair ∈ entries → Reached w (.map entries)

/-- No map that is reached from the value lists a key twice. -/
def DistinctKeys (v : Value) : Prop :=
  ∀ entries, Reached (.map entries) v → Entries.Distinct entries

theorem reached_list {w : Value} {items : List Value} :
    Reached w (list items) ↔ w = list items ∨ ∃ v ∈ items, Reached w v := by
  constructor
  · intro h
    cases h with
    | self => exact .inl rfl
    | item h hv => exact .inr ⟨_, hv, h⟩
  · intro h
    obtain rfl | ⟨v, hv, h⟩ := h
    · exact .self
    · exact .item h hv

theorem reached_map {w : Value} {entries : List (String × Value)} :
    Reached w (map entries) ↔ w = map entries ∨ ∃ pair ∈ entries, Reached w pair.2 := by
  constructor
  · intro h
    cases h with
    | self => exact .inl rfl
    | entry h hpair => exact .inr ⟨_, hpair, h⟩
  · intro h
    obtain rfl | ⟨pair, hpair, h⟩ := h
    · exact .self
    · exact .entry h hpair

theorem reached_other {v w : Value} (hlist : ∀ items, v ≠ list items)
    (hmap : ∀ entries, v ≠ map entries) : Reached w v ↔ w = v := by
  constructor
  · intro h
    cases h with
    | self => rfl
    | item => exact absurd rfl (hlist _)
    | entry => exact absurd rfl (hmap _)
  · rintro rfl
    exact .self

theorem distinctKeys_list {items : List Value} :
    (list items).DistinctKeys ↔ ∀ v ∈ items, v.DistinctKeys := by
  simp only [DistinctKeys, reached_list]
  constructor
  · intro h v hv entries hentries
    exact h entries (.inr ⟨v, hv, hentries⟩)
  · intro h entries hentries
    obtain hself | ⟨v, hv, hentries⟩ := hentries
    · cases hself
    · exact h v hv entries hentries

theorem distinctKeys_map {entries : List (String × Value)} : (map entries).DistinctKeys ↔
    Entries.Distinct entries ∧ ∀ pair ∈ entries, pair.2.DistinctKeys := by
  simp only [DistinctKeys, reached_map]
  constructor
  · intro h
    exact ⟨h entries (.inl rfl), fun pair hpair others hothers =>
      h others (.inr ⟨pair, hpair, hothers⟩)⟩
  · intro h others hothers
    obtain hself | ⟨pair, hpair, hothers⟩ := hothers
    · cases hself
      exact h.1
    · exact h.2 pair hpair others hothers

theorem distinctKeys_other {v : Value} (hlist : ∀ items, v ≠ list items)
    (hmap : ∀ entries, v ≠ map entries) : v.DistinctKeys := by
  intro entries h
  rw [reached_other hlist hmap] at h
  exact absurd h.symm (hmap entries)

/-- What holds of a list if it holds of its items, of a map if it holds of its values, and of all
other values, holds of all values. -/
@[elab_as_elim] theorem nested_induction {motive : Value → Prop} (v : Value)
    (list : ∀ items, (∀ v ∈ items, motive v) → motive (.list items))
    (map : ∀ entries, (∀ pair ∈ entries, motive pair.2) → motive (.map entries))
    (other : ∀ v, (∀ items, v ≠ .list items) → (∀ entries, v ≠ .map entries) → motive v) :
    motive v := by
  induction hsize : sizeOf v using Nat.strongRecOn generalizing v with
  | _ size ih =>
    subst hsize
    cases v with
    | list items =>
      refine list items fun v hv => ih _ ?_ v rfl
      have hlt := List.sizeOf_lt_of_mem hv
      simp only [Value.list.sizeOf_spec]
      omega
    | map entries =>
      refine map entries fun pair hpair => ih _ ?_ pair.2 rfl
      have hlt := List.sizeOf_lt_of_mem hpair
      obtain ⟨key, v⟩ := pair
      simp only [Value.map.sizeOf_spec, Prod.mk.sizeOf_spec] at *
      omega
    | _ => exact other _ (by simp) (by simp)

/-! ## What equality says of lists and maps -/

theorem equalItems_iff {as bs : List Value} : equalItems as bs = true ↔
    as.length = bs.length ∧ ∀ i (ha : i < as.length) (hb : i < bs.length),
      as[i].equal bs[i] = true := by
  have hitems : equalItems as bs = true ↔ List.Forall₂ (fun a b => a.equal b = true) as bs := by
    induction as generalizing bs with
    | nil => cases bs <;> simp [equalItems]
    | cons a as ih => cases bs <;> simp [equalItems, ih]
  rw [hitems, List.forall₂_iff_get]
  simp only [List.get_eq_getElem]

theorem equalEntries_iff {entries others : List (String × Value)} :
    equalEntries entries others = true ↔
      ∀ pair ∈ entries, ∃ b, Entries.get? others pair.1 = some b ∧ pair.2.equal b = true := by
  induction entries with
  | nil => simp [equalEntries]
  | cons pair rest ih =>
    obtain ⟨key, a⟩ := pair
    cases hget : Entries.get? others key <;> simp [equalEntries, hget, ih]

/-- What is equal to a list is a list of equal items. -/
theorem equal_list_iff {as : List Value} {w : Value} : (list as).equal w = true ↔
    ∃ bs, w = list bs ∧ as.length = bs.length ∧
      ∀ i (ha : i < as.length) (hb : i < bs.length), as[i].equal bs[i] = true := by
  cases w <;> simp [equal, equalItems_iff]

/-- What is equal to a map is a map of the same size with an equal value under each key. -/
theorem equal_map_iff {entries : List (String × Value)} {w : Value} :
    (map entries).equal w = true ↔ ∃ others, w = map others ∧ entries.length = others.length ∧
      ∀ pair ∈ entries, ∃ b, Entries.get? others pair.1 = some b ∧ pair.2.equal b = true := by
  cases w <;> simp [equal, equalEntries_iff]

/-! ## Symmetry and transitivity -/

theorem equal_symm {v w : Value} (hv : v.DistinctKeys) (hw : w.DistinctKeys)
    (h : v.equal w = true) : w.equal v = true := by
  induction v using nested_induction generalizing w with
  | list items ih =>
    obtain ⟨others, rfl, hlength, hequal⟩ := equal_list_iff.mp h
    rw [distinctKeys_list] at hv hw
    refine equal_list_iff.mpr ⟨items, rfl, hlength.symm, fun i hothers hitems => ?_⟩
    have hitem := List.getElem_mem hitems
    have hother := List.getElem_mem hothers
    exact ih _ hitem (hv _ hitem) (hw _ hother) (hequal i hitems hothers)
  | map entries ih =>
    obtain ⟨others, rfl, hlength, hequal⟩ := equal_map_iff.mp h
    rw [distinctKeys_map] at hv hw
    have hkeys : Entries.keys entries ⊆ Entries.keys others := by
      intro key hkey
      obtain ⟨pair, hpair, rfl⟩ := List.mem_map.mp hkey
      obtain ⟨b, hb, -⟩ := hequal pair hpair
      exact (Entries.mem_keys_iff _ _).mpr (Option.isSome_of_mem hb)
    refine equal_map_iff.mpr ⟨entries, rfl, hlength.symm, fun pair hpair => ?_⟩
    -- The key of an entry of the second map is one of the first, and there under an equal value.
    have hkey := Entries.keys_subset_of_length hv.1 hlength hkeys (List.mem_map_of_mem hpair)
    obtain ⟨a, ha⟩ := Option.isSome_iff_exists.mp ((Entries.mem_keys_iff _ _).mp hkey)
    have hmem := Entries.mem_of_get? ha
    obtain ⟨b, hb, hab⟩ := hequal _ hmem
    rw [Entries.get?_of_mem hw.1 hpair] at hb
    cases hb
    exact ⟨a, ha, ih _ hmem (hv.2 _ hmem) (hw.2 _ hpair) hab⟩
  | other v hlist hmap => cases v <;> cases w <;> simp_all [equal, Binary64.equal_comm]

/-- **Equality is symmetric.** -/
theorem equal_comm {v w : Value} (hv : v.DistinctKeys) (hw : w.DistinctKeys) :
    v.equal w = w.equal v :=
  Bool.eq_iff_iff.mpr ⟨equal_symm hv hw, equal_symm hw hv⟩

/-- **Equality is transitive.** -/
theorem equal_trans {u v w : Value} (huv : u.equal v = true) (hvw : v.equal w = true) :
    u.equal w = true := by
  induction u using nested_induction generalizing v w with
  | list items ih =>
    obtain ⟨middle, rfl, hlength, hequal⟩ := equal_list_iff.mp huv
    obtain ⟨others, rfl, hlength', hequal'⟩ := equal_list_iff.mp hvw
    refine equal_list_iff.mpr ⟨others, rfl, hlength.trans hlength', fun i hitems hothers => ?_⟩
    have hmiddle : i < middle.length := by omega
    exact ih _ (List.getElem_mem hitems) (hequal i hitems hmiddle) (hequal' i hmiddle hothers)
  | map entries ih =>
    obtain ⟨middle, rfl, hlength, hequal⟩ := equal_map_iff.mp huv
    obtain ⟨others, rfl, hlength', hequal'⟩ := equal_map_iff.mp hvw
    refine equal_map_iff.mpr ⟨others, rfl, hlength.trans hlength', fun pair hpair => ?_⟩
    obtain ⟨b, hb, hab⟩ := hequal pair hpair
    obtain ⟨c, hc, hbc⟩ := hequal' _ (Entries.mem_of_get? hb)
    exact ⟨c, hc, ih pair hpair hab hbc⟩
  | other u hlist hmap =>
    cases u <;> cases v <;> simp [equal] at huv <;> cases w <;> simp [equal] at hvw ⊢ <;>
      simp_all
    exact Binary64.equal_trans huv hvw

/-! ## Values equal to themselves -/

/-- **A value is equal to itself unless a NaN is reached from it.** -/
theorem equal_self_iff {v : Value} (hv : v.DistinctKeys) :
    v.equal v = true ↔ ¬ Reached (.number .nan) v := by
  induction v using nested_induction with
  | list items ih =>
    rw [distinctKeys_list] at hv
    have hitems : (list items).equal (list items) = true ↔ ∀ v ∈ items, v.equal v = true := by
      simp [equal_list_iff, List.forall_mem_iff_getElem]
    rw [hitems, reached_list]
    simp only [reduceCtorEq, false_or, not_exists, not_and]
    exact forall₂_congr fun v hmem => ih v hmem (hv v hmem)
  | map entries ih =>
    rw [distinctKeys_map] at hv
    have hentries : (map entries).equal (map entries) = true ↔
        ∀ pair ∈ entries, pair.2.equal pair.2 = true := by
      rw [equal_map_iff]
      constructor
      · intro h pair hpair
        obtain ⟨_, ⟨⟩, -, hequal⟩ := h
        obtain ⟨b, hb, hab⟩ := hequal pair hpair
        rw [Entries.get?_of_mem hv.1 hpair] at hb
        cases hb
        exact hab
      · intro h
        exact ⟨entries, rfl, rfl, fun pair hpair =>
          ⟨pair.2, Entries.get?_of_mem hv.1 hpair, h pair hpair⟩⟩
    rw [hentries, reached_map]
    simp only [reduceCtorEq, false_or, not_exists, not_and]
    exact forall₂_congr fun pair hmem => ih pair hmem (hv.2 pair hmem)
  | other v hlist hmap =>
    rw [reached_other hlist hmap]
    cases v with
    | number x => simp [equal, Binary64.equal_self_iff, @eq_comm _ x]
    | _ => simp_all [equal]

/-! ## The order of entries -/

/-- The same value, with the entries of maps in another order. -/
inductive Reordered : Value → Value → Prop
  | refl (v) : Reordered v v
  | trans {u v w} : Reordered u v → Reordered v w → Reordered u w
  | order {entries others} : entries.Perm others → Reordered (.map entries) (.map others)
  | item {before v v' after} : Reordered v v' →
      Reordered (.list (before ++ v :: after)) (.list (before ++ v' :: after))
  | entry {before key v v' after} : Reordered v v' →
      Reordered (.map (before ++ (key, v) :: after)) (.map (before ++ (key, v') :: after))

theorem Reordered.distinctKeys {v v' : Value} (h : Reordered v v') (hv : v.DistinctKeys) :
    v'.DistinctKeys := by
  induction h with
  | refl => exact hv
  | trans _ _ ih ih' => exact ih' (ih hv)
  | order hperm =>
    rw [distinctKeys_map] at hv ⊢
    exact ⟨hv.1.perm hperm, fun pair hpair => hv.2 pair (hperm.mem_iff.mpr hpair)⟩
  | item _ ih =>
    simp only [distinctKeys_list, List.forall_mem_append, List.forall_mem_cons] at hv ⊢
    exact ⟨hv.1, ih hv.2.1, hv.2.2⟩
  | entry _ ih =>
    simp only [distinctKeys_map, List.forall_mem_append, List.forall_mem_cons] at hv ⊢
    refine ⟨?_, hv.2.1, ih hv.2.2.1, hv.2.2.2⟩
    simpa [Entries.Distinct, Entries.keys] using hv.1

theorem equalItems_replace {v v' : Value} (h : ∀ w, v.equal w = v'.equal w)
    (before after others : List Value) :
    equalItems (before ++ v :: after) others = equalItems (before ++ v' :: after) others := by
  induction before generalizing others with
  | nil => cases others <;> simp [equalItems, h]
  | cons b before ih => cases others <;> simp [equalItems, ih]

/-- The first value of a comparison may be reordered. -/
theorem Reordered.equal_left {v v' : Value} (h : Reordered v v') (w : Value) :
    v.equal w = v'.equal w := by
  induction h generalizing w with
  | refl => rfl
  | trans _ _ ih ih' => rw [ih, ih']
  | order hperm =>
    rw [Bool.eq_iff_iff, equal_map_iff, equal_map_iff]
    simp only [hperm.length_eq, hperm.mem_iff]
  | item _ ih => cases w <;> simp [equal, equalItems_replace ih]
  | entry _ ih =>
    rw [Bool.eq_iff_iff, equal_map_iff, equal_map_iff]
    simp only [List.length_append, List.length_cons, List.forall_mem_append,
      List.forall_mem_cons, ih]

/-- **The order of entries makes no difference.** -/
theorem equal_of_reordered {v v' w w' : Value} (hv : v.DistinctKeys) (hw : w.DistinctKeys)
    (hvv' : Reordered v v') (hww' : Reordered w w') : v.equal w = v'.equal w' := by
  have hv' := hvv'.distinctKeys hv
  have hw' := hww'.distinctKeys hw
  calc v.equal w = v'.equal w := hvv'.equal_left w
    _ = w.equal v' := equal_comm hv' hw
    _ = w'.equal v' := hww'.equal_left v'
    _ = v'.equal w' := equal_comm hw' hv'

/-- An object is equal to no other object and to nothing else. -/
theorem equal_object {v w : Value} {face : Face} (hface : v.face? = some face)
    (h : v.equal w = true) : ∃ face', w.face? = some face' ∧ face'.origin = face.origin := by
  cases v <;> simp only [face?, Option.some.injEq, reduceCtorEq] at hface <;> subst hface <;>
    cases w <;> simp [equal] at h
  · exact ⟨_, rfl, h.symm⟩
  · exact ⟨_, rfl, h.symm⟩

end Value

/-- **Equality of values is a partial equivalence.** It is symmetric and transitive and does not see
in what order maps list their entries, at any depth. Exactly those values are equal to themselves
from which no NaN is reached; what objects hold does not matter, as they are equal only to
themselves. -/
theorem equality_is_partial_equivalence :
    (∀ v w : Value, v.DistinctKeys → w.DistinctKeys → v.equal w = w.equal v) ∧
    (∀ u v w : Value, u.equal v = true → v.equal w = true → u.equal w = true) ∧
    (∀ v v' w w' : Value, v.DistinctKeys → w.DistinctKeys → v.Reordered v' → w.Reordered w' →
      v.equal w = v'.equal w') ∧
    (∀ v : Value, v.DistinctKeys → (v.equal v = true ↔ ¬ Value.Reached (.number .nan) v)) ∧
    ∀ (v w : Value) (face : Face), v.face? = some face → v.equal w = true →
      ∃ face', w.face? = some face' ∧ face'.origin = face.origin := by
  refine ⟨?_, ?_, ?_, ?_, ?_⟩
  · intro v w hv hw
    exact Value.equal_comm hv hw
  · intro u v w huv hvw
    exact Value.equal_trans huv hvw
  · intro v v' w w' hv hw hvv' hww'
    exact Value.equal_of_reordered hv hw hvv' hww'
  · intro v hv
    exact Value.equal_self_iff hv
  · intro v w face hface h
    exact Value.equal_object hface h

/-- A map in a list in a map, its entries and those around it in another order, and a record that
holds a NaN. -/
theorem equality_is_partial_equivalence_of_nested_maps : ∃ object v v' : Value,
    object = .record ⟨[0]⟩ [("n", .number .nan)] ∧
    v = .map [("a", .list [.map [("x", .null), ("y", object)]]), ("b", .bool true)] ∧
    v' = .map [("b", .bool true), ("a", .list [.map [("y", object), ("x", .null)]])] ∧
    v.DistinctKeys ∧ v'.DistinctKeys ∧ v.Reordered v' ∧ v.equal v' = v'.equal v ∧
    v.equal v = v.equal v' ∧ v.equal v' = true ∧ v'.equal v' = true ∧
    ¬ Value.Reached (.number .nan) v := by
  obtain ⟨hcomm, htrans, horder, hself, -⟩ := equality_is_partial_equivalence
  refine ⟨_, _, _, rfl, rfl, rfl, ?_⟩
  generalize hv : Value.map [("a", .list [.map [("x", .null),
    ("y", .record ⟨[0]⟩ [("n", .number .nan)])]]), ("b", .bool true)] = v
  generalize hv' : Value.map [("b", .bool true), ("a", .list [.map
    [("y", .record ⟨[0]⟩ [("n", .number .nan)]), ("x", .null)]])] = v'
  have hdistinct : v.DistinctKeys := by
    have hleaf (origin : Origin) (entries : List (String × Value)) :
        (Value.record origin entries).DistinctKeys := Value.distinctKeys_other nofun nofun
    have hnull : Value.null.DistinctKeys := Value.distinctKeys_other nofun nofun
    have hbool (b : Bool) : (Value.bool b).DistinctKeys := Value.distinctKeys_other nofun nofun
    simp [← hv, Value.distinctKeys_map, Value.distinctKeys_list, hleaf, hnull, hbool,
      Entries.Distinct, Entries.keys]
  have hreordered : v.Reordered v' := by
    rw [← hv, ← hv']
    refine .trans (.order (List.Perm.swap _ _ _)) ?_
    exact @Value.Reordered.entry [_] _ _ _ _
      (@Value.Reordered.item [] _ _ _ (.order (List.Perm.swap _ _ _)))
  have hequal : v.equal v = true := by
    rw [← hv]
    rfl
  have hsame : v.equal v = v.equal v' := horder v v v v' hdistinct hdistinct (.refl v) hreordered
  have hdistinct' : v'.DistinctKeys := hreordered.distinctKeys hdistinct
  have hsymm : v.equal v' = v'.equal v := hcomm v v' hdistinct hdistinct'
  have hforth : v.equal v' = true := hsame.symm.trans hequal
  exact ⟨hdistinct, hdistinct', hreordered, hsymm, hsame, hforth,
    htrans v' v v' (hsymm.symm.trans hforth) hforth, (hself v hdistinct).mp hequal⟩

end JsonTemplate
