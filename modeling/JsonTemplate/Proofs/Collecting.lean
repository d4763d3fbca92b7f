/-
Collecting entries. A key that comes again keeps its first place and takes its last value. That
settles the entries a list of pairs makes (`Entries.Settles.unique`); inserting the pairs one by one
makes them, and so does every other way of building a map or a record
(`collecting_settles_entries`).
-/
import Mathlib.Data.List.Induction
import Mathlib.Data.List.Nodup
import JsonTemplate.Proofs.Keys

namespace JsonTemplate

/-! ## Last values -/

namespace Entries

variable {α : Type u} {pairs : List (String × α)} {entries : Entries α} {key k : String}
  {value v : α}

/-- The value of the last pair of the key. -/
def IsLast (pairs : List (String × α)) (key : String) (value : α) : Prop :=
  ∃ before after, pairs = before ++ (key, value) :: after ∧ key ∉ keys after

theorem IsLast.mem_keys (h : IsLast pairs key value) : key ∈ keys pairs := by
  obtain ⟨before, after, rfl, -⟩ := h
  simp [keys]

/-- A pair more: its key has its value, the others keep theirs. -/
theorem isLast_concat : IsLast (pairs ++ [(key, value)]) k v ↔
    (k = key ∧ v = value) ∨ (k ≠ key ∧ IsLast pairs k v) := by
  constructor
  · rintro ⟨before, after, h, hlast⟩
    rcases List.eq_nil_or_concat after with rfl | ⟨after, final, rfl⟩
    · obtain ⟨-, heq⟩ := List.append_inj' h rfl
      cases heq
      exact .inl ⟨rfl, rfl⟩
    · rw [List.concat_eq_append, ← List.cons_append, ← List.append_assoc] at h
      obtain ⟨rfl, heq⟩ := List.append_inj' h rfl
      cases heq
      simp only [keys, List.concat_eq_append, List.map_append, List.mem_append, List.map_cons,
        List.map_nil, List.mem_singleton, not_or] at hlast
      exact .inr ⟨hlast.2, before, after, rfl, hlast.1⟩
  · rintro (⟨rfl, rfl⟩ | ⟨hne, before, after, rfl, hlast⟩)
    · exact ⟨pairs, [], rfl, List.not_mem_nil⟩
    · exact ⟨before, after ++ [(key, value)], by simp, by simpa [keys, hne] using hlast⟩

theorem exists_isLast (h : key ∈ keys pairs) : ∃ value, IsLast pairs key value := by
  induction pairs using List.reverseRecOn with
  | nil => cases h
  | append_singleton pairs pair ih =>
    obtain ⟨k, v⟩ := pair
    by_cases hk : key = k
    · exact ⟨v, isLast_concat.mpr (.inl ⟨hk, rfl⟩)⟩
    · have hmem : key ∈ keys pairs := by simpa [keys, hk] using h
      obtain ⟨value, hlast⟩ := ih hmem
      exact ⟨value, isLast_concat.mpr (.inr ⟨hk, hlast⟩)⟩

/-! ## Settled entries -/

theorem mem_iff_get? (h : entries.Distinct) :
    (key, value) ∈ entries ↔ entries.get? key = some value :=
  ⟨get?_of_mem h, mem_of_get?⟩

/-- An insertion does to distinct entries what a pair more does to the last values. -/
theorem mem_insert_iff (h : entries.Distinct) : (k, v) ∈ entries.insert key value ↔
    (k = key ∧ v = value) ∨ (k ≠ key ∧ (k, v) ∈ entries) := by
  rw [mem_iff_get? (h.insert key value), mem_iff_get? h]
  by_cases hk : k = key
  · subst hk
    simp [get?_insert_self, eq_comm]
  · simp [get?_insert_of_ne entries value hk, hk]

/-- The first pair of the one key stands before the first pair of the other. -/
def Precedes (pairs : List (String × α)) (a b : String) : Prop :=
  (keys pairs).idxOf a < (keys pairs).idxOf b

/-- Each key of the pairs once, in the order of their first pairs, with the values of their last. -/
structure Settles (pairs : List (String × α)) (entries : Entries α) : Prop where
  once : entries.Distinct
  order : entries.keys.Pairwise (Precedes pairs)
  last : ∀ key value, (key, value) ∈ entries ↔ IsLast pairs key value

theorem Settles.mem_keys_iff (h : Settles pairs entries) (key : String) :
    key ∈ entries.keys ↔ key ∈ keys pairs := by
  constructor
  · intro hmem
    obtain ⟨⟨k, value⟩, hentry, rfl⟩ := List.mem_map.mp hmem
    exact ((h.last k value).mp hentry).mem_keys
  · intro hmem
    obtain ⟨value, hlast⟩ := exists_isLast hmem
    exact List.mem_map_of_mem (f := (·.1)) ((h.last key value).mpr hlast)

theorem Settles.nil : Settles ([] : List (String × α)) [] where
  once := List.nodup_nil
  order := .nil
  last _ _ := ⟨nofun, fun h => absurd h.mem_keys List.not_mem_nil⟩

theorem precedes_concat {a b : String} (ha : a ∈ keys pairs) (pair : String × α)
    (h : Precedes pairs a b) : Precedes (pairs ++ [pair]) a b := by
  have hkeys : keys (pairs ++ [pair]) = keys pairs ++ [pair.1] := by simp [keys]
  rw [Precedes, hkeys, List.idxOf_append_of_mem ha]
  by_cases hb : b ∈ keys pairs
  · rwa [List.idxOf_append_of_mem hb]
  · rw [List.idxOf_append_of_notMem hb]
    have := List.idxOf_lt_length_iff.mpr ha
    omega

theorem precedes_new {a : String} (ha : a ∈ keys pairs) (hkey : key ∉ keys pairs) (value : α) :
    Precedes (pairs ++ [(key, value)]) a key := by
  have hkeys : keys (pairs ++ [(key, value)]) = keys pairs ++ [key] := by simp [keys]
  rw [Precedes, hkeys, List.idxOf_append_of_mem ha, List.idxOf_append_of_notMem hkey]
  have := List.idxOf_lt_length_iff.mpr ha
  omega

/-- What one insertion preserves: the entries settle the pairs so far. -/
theorem Settles.insert (h : Settles pairs entries) (key : String) (value : α) :
    Settles (pairs ++ [(key, value)]) (entries.insert key value) where
  once := h.once.insert key value
  order := by
    have hkept : entries.keys.Pairwise (Precedes (pairs ++ [(key, value)])) :=
      h.order.imp_of_mem fun ha _ hab => precedes_concat ((h.mem_keys_iff _).mp ha) _ hab
    rw [keys_insert]
    split
    · exact hkept
    · rename_i hnew
      rw [h.mem_keys_iff] at hnew
      refine List.pairwise_append.mpr ⟨hkept, List.pairwise_singleton _ _, fun a ha b hb => ?_⟩
      rw [List.mem_singleton.mp hb]
      exact precedes_new ((h.mem_keys_iff a).mp ha) hnew value
  last k v := by rw [mem_insert_iff h.once, isLast_concat, h.last]

theorem settles_ofPairs (pairs : List (String × α)) : Settles pairs (ofPairs pairs) := by
  induction pairs using List.reverseRecOn with
  | nil => exact .nil
  | append_singleton pairs pair ih =>
    have hstep : ofPairs (pairs ++ [pair]) = (ofPairs pairs).insert pair.1 pair.2 :=
      List.foldl_concat _ _ _ _
    exact hstep ▸ ih.insert pair.1 pair.2

/-- The pairs leave no choice. -/
theorem Settles.unique {entries' : Entries α} (h : Settles pairs entries)
    (h' : Settles pairs entries') : entries = entries' := by
  have hperm : entries.Perm entries' :=
    (List.perm_ext_iff_of_nodup (.of_map _ h.once) (.of_map _ h'.once)).mpr
      fun pair => (h.last pair.1 pair.2).trans (h'.last pair.1 pair.2).symm
  refine List.Perm.eq_of_pairwise (fun a b _ _ hab hba => ?_) (List.pairwise_map.mp h.order)
    (List.pairwise_map.mp h'.order) hperm
  exact absurd hab (Nat.lt_asymm hba)

end Entries

/-! ## Views -/

/-- What an object answers fits the entries: the keys it lists, each once, are those it has a value
for and those it says it contains, and their number is its size. -/
structure Face.Shows (face : Face) (entries : Entries Value) : Prop where
  keys : face.keys = entries.keys.map .string
  size : face.size = face.keys.length
  value : ∀ key value, face.get key = .ok value ↔ (key, value) ∈ entries
  once : ∀ key, entries.keys.count key = 1 ↔ ∃ value, face.get key = .ok value
  contains : ∀ key, face.contains key = true ↔ ∃ value, face.get key = .ok value
  absent : ∀ key, entries.keys.count key = 0 ↔ face.get key = .error (.of (.noSuchKey key))

section Views

variable {entries : Entries Value}

theorem Face.get_ofEntries_eq_ok {made : Origin} {key : String} {value : Value} :
    (Face.ofEntries made entries).get key = .ok value ↔ entries.get? key = some value := by
  simp only [Face.ofEntries]
  cases entries.get? key <;> simp

theorem Face.get_ofEntries_eq_error {made : Origin} {key : String} :
    (Face.ofEntries made entries).get key = .error (.of (.noSuchKey key)) ↔
      entries.get? key = none := by
  simp only [Face.ofEntries]
  cases entries.get? key <;> simp

theorem Face.shows_ofEntries (h : entries.Distinct) (made : Origin) :
    (Face.ofEntries made entries).Shows entries := by
  have hfound (key : String) : entries.contains key = true ↔
      ∃ value, (Face.ofEntries made entries).get key = .ok value := by
    simp only [Face.get_ofEntries_eq_ok, Entries.contains, Option.isSome_iff_exists]
  refine ⟨rfl, by simp [Face.ofEntries, Entries.keys], fun key value => ?_, fun key => ?_, hfound,
    fun key => ?_⟩
  · rw [Face.get_ofEntries_eq_ok, Entries.mem_iff_get? h]
  · rw [← hfound, Entries.contains, ← Entries.mem_keys_iff]
    refine ⟨fun hcount => List.count_pos_iff.mp (hcount ▸ Nat.one_pos), fun hmem =>
      List.count_eq_one_of_mem h hmem⟩
  · rw [List.count_eq_zero, Face.get_ofEntries_eq_error, Entries.mem_keys_iff,
      Option.not_isSome_iff_eq_none]

/-- A value answers an expression as the object does. -/
structure Value.Answers (container : Value) (face : Face) : Prop where
  select : ∀ key, container.select key = face.get key
  index : ∀ key, container.index (.string key) = face.get key
  hasField : ∀ key, container.hasField key = .ok (face.contains key)
  contains : ∀ key, container.contains (.string key) = .ok (face.contains key)
  items : container.rangeItems = .ok face.keys
  size : Standard.size none [container] = .ok (.ofNat face.size)

theorem Value.Keyed.answers {container : Value} (h : container.Keyed entries) (made : Origin) :
    container.Answers (.ofEntries made entries) where
  select := h.select
  index key := h.index (.string key)
  hasField := h.hasField
  contains key := h.contains (.string key)
  items := by cases h <;> rfl
  size := by cases h <;> rfl

end Views

open JsonTemplate.Expr (Pairs texts)

/-- **Repeated keys keep their first place and take their last value.** One list of entries settles
the pairs, and every way of building a map or a record makes it: inserting the pairs one by one,
collecting them at once, a map of them, and a map literal whose keys have these texts. What is made
lists each key once, finds and contains exactly the listed keys, and is as large as their number,
whether a map or a record is asked. -/
theorem collecting_settles_entries (pairs : List (String × Value)) :
    ∃ entries : Entries Value,
      (∀ others, Entries.Settles pairs others ↔ others = entries) ∧
      pairs.foldl (fun made pair => Entries.insert made pair.1 pair.2) [] = entries ∧
      Entries.ofPairs pairs = entries ∧
      Value.ofMap pairs = .map entries ∧
      (∀ {env : Environment} {context : Context} {origin : Origin}
        {literals : List (Expr × Expr)} {evaluated : List (Value × Value)},
        Pairs env context origin 0 literals evaluated → (∀ pair ∈ evaluated, pair.1.IsKey) →
        texts evaluated = pairs →
        ∀ span, (Expr.dict span literals).eval env origin context = .ok (.map entries)) ∧
      ∀ made, (Face.ofEntries made entries).Shows entries ∧
        ∀ container : Value, container.Keyed entries →
          container.Answers (.ofEntries made entries) := by
  have hsettles := Entries.settles_ofPairs pairs
  refine ⟨Entries.ofPairs pairs, fun others => ⟨fun h => h.unique hsettles, fun h => h ▸ hsettles⟩,
    rfl, rfl, rfl, ?_, fun made => ⟨Face.shows_ofEntries hsettles.once made, fun _ h =>
      h.answers made⟩⟩
  intro env context origin literals evaluated hpairs hkeys htexts span
  exact Expr.eval_dict_eq_ok.mpr ⟨evaluated, hpairs, hkeys, by rw [htexts]; rfl⟩

/-- `{true: 1, "a": 2, "true": 3}`: the keys of one text make one entry. -/
theorem collecting_settles_entries_of_one_text :
    let string (s : String) : Expr := .literal ⟨1, 7⟩ (.string s)
    let number (n : Nat) : Expr := .literal ⟨8, 9⟩ (.number (.ofNat n))
    let literals := [(.literal ⟨1, 5⟩ (.bool true), number 1), (string "a", number 2),
      (string "true", number 3)]
    let entries : Entries Value := [("true", .ofNat 3), ("a", .ofNat 2)]
    (Expr.dict ⟨0, 29⟩ literals).eval .standard default (fun _ => none) = .ok (.map entries) ∧
      Entries.Settles [("true", .ofNat 1), ("a", .ofNat 2), ("true", .ofNat 3)] entries ∧
      (Face.ofEntries default entries).Shows entries := by
  intro string number literals entries
  obtain ⟨made, hsettles, hinserted, -, -, hliteral, hshows⟩ :=
    collecting_settles_entries [("true", .ofNat 1), ("a", .ofNat 2), ("true", .ofNat 3)]
  obtain rfl : made = entries := hinserted.symm.trans (by rfl)
  have hpairs : Pairs .standard (fun _ => none) default 0 literals
      [(.bool true, .ofNat 1), (.string "a", .ofNat 2), (.string "true", .ofNat 3)] :=
    .cons rfl rfl (.cons rfl rfl (.cons rfl rfl (.nil 6)))
  have hkeys : ∀ pair ∈ [((.bool true : Value), Value.ofNat 1), (.string "a", .ofNat 2),
      (.string "true", .ofNat 3)], pair.1.IsKey := by
    simp only [List.forall_mem_cons]
    exact ⟨.bool true, .string "a", .string "true", List.forall_mem_nil _⟩
  exact ⟨hliteral hpairs hkeys rfl ⟨0, 29⟩, (hsettles _).mpr rfl, (hshows default).1⟩

end JsonTemplate
