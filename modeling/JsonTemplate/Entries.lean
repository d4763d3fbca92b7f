/-
String-keyed entries in order. A key inserted again keeps its first place and takes the last
value, so entries built by `insert` from the empty list have distinct keys (`distinct_ofPairs`)
and every listed key is found (`mem_keys_iff`).
-/

namespace JsonTemplate

/-- Key and value pairs in order. The operations below read the first pair of a key. -/
abbrev Entries (α : Type u) := List (String × α)

namespace Entries

variable {α : Type u} {β : Type v}

def get? : Entries α → String → Option α
  | [], _ => none
  | (k, v) :: rest, key => if k = key then some v else get? rest key

def contains (entries : Entries α) (key : String) : Bool := (entries.get? key).isSome

def keys (entries : Entries α) : List String := entries.map (·.1)

/-- Replaces the value of a present key where it stands and appends an absent one. -/
def insert : Entries α → String → α → Entries α
  | [], key, value => [(key, value)]
  | (k, v) :: rest, key, value =>
    if k = key then (k, value) :: rest else (k, v) :: insert rest key value

/-- Inserts the pairs from the left. -/
def insertAll (entries : Entries α) (pairs : List (String × α)) : Entries α :=
  pairs.foldl (fun acc pair => acc.insert pair.1 pair.2) entries

def ofPairs (pairs : List (String × α)) : Entries α := insertAll [] pairs

/-- No key stands twice. -/
def Distinct (entries : Entries α) : Prop := entries.keys.Nodup

instance (entries : Entries α) : Decidable entries.Distinct :=
  inferInstanceAs (Decidable entries.keys.Nodup)

theorem get?_insert_self (entries : Entries α) (key : String) (value : α) :
    (entries.insert key value).get? key = some value := by
  induction entries with
  | nil => simp [insert, get?]
  | cons pair rest ih =>
    obtain ⟨k, v⟩ := pair
    by_cases h : k = key <;> simp [insert, get?, h, ih]

theorem get?_insert_of_ne (entries : Entries α) {key other : String} (value : α)
    (hne : other ≠ key) : (entries.insert key value).get? other = entries.get? other := by
  induction entries with
  | nil => simp [insert, get?, hne.symm]
  | cons pair rest ih =>
    obtain ⟨k, v⟩ := pair
    by_cases h : k = key
    · subst h; simp [insert, get?, hne.symm]
    · by_cases ho : k = other
      · subst ho; simp [insert, get?, hne]
      · simp [insert, get?, h, ho, ih]

theorem keys_insert (entries : Entries α) (key : String) (value : α) :
    (entries.insert key value).keys =
      if key ∈ entries.keys then entries.keys else entries.keys ++ [key] := by
  induction entries with
  | nil => rfl
  | cons pair rest ih =>
    obtain ⟨k, v⟩ := pair
    simp only [keys] at ih
    by_cases h : k = key
    · simp [insert, keys, h]
    · by_cases hm : key ∈ rest.map (·.1) <;>
        simp_all [insert, keys, Ne.symm h]

theorem mem_keys_iff (entries : Entries α) (key : String) :
    key ∈ entries.keys ↔ (entries.get? key).isSome := by
  induction entries with
  | nil => simp [keys, get?]
  | cons pair rest ih =>
    obtain ⟨k, v⟩ := pair
    simp only [keys] at ih
    by_cases h : k = key
    · simp [keys, get?, h]
    · simp [keys, get?, h, Ne.symm h, ← ih]

/-- Whether a key is there depends on the keys. -/
theorem contains_congr {entries : Entries α} {entries' : Entries β} {key : String}
    (h : key ∈ entries.keys ↔ key ∈ entries'.keys) :
    entries.contains key = entries'.contains key := by
  rw [mem_keys_iff, mem_keys_iff] at h
  exact Bool.eq_iff_iff.mpr h

theorem mem_keys_insert {entries : Entries α} {key other : String} {value : α} :
    other ∈ (entries.insert key value).keys ↔ other ∈ entries.keys ∨ other = key := by
  rw [keys_insert]
  split
  · rename_i hmem
    exact ⟨.inl, fun h => h.elim id (· ▸ hmem)⟩
  · simp

theorem mem_keys_insertAll {pairs : List (String × α)} {entries : Entries α} {key : String} :
    key ∈ (entries.insertAll pairs).keys ↔ key ∈ entries.keys ∨ key ∈ keys pairs := by
  induction pairs generalizing entries with
  | nil => simp [insertAll, keys]
  | cons pair rest ih =>
    calc key ∈ (entries.insertAll (pair :: rest)).keys
        ↔ key ∈ ((entries.insert pair.1 pair.2).insertAll rest).keys := Iff.rfl
      _ ↔ (key ∈ entries.keys ∨ key = pair.1) ∨ key ∈ keys rest := by rw [ih, mem_keys_insert]
      _ ↔ key ∈ entries.keys ∨ key ∈ keys (pair :: rest) := by simp [keys, or_assoc]

theorem mem_insert {entries : Entries α} {key : String} {value : α} {pair : String × α}
    (h : pair ∈ entries.insert key value) : pair ∈ entries ∨ pair = (key, value) := by
  induction entries with
  | nil => right; simpa [insert] using h
  | cons first rest ih =>
    obtain ⟨k, v⟩ := first
    by_cases hk : k = key
    · subst hk
      simp only [insert, if_true, List.mem_cons] at h
      rcases h with rfl | h
      · exact .inr rfl
      · exact .inl (List.mem_cons_of_mem _ h)
    · simp only [insert, if_neg hk, List.mem_cons] at h
      rcases h with rfl | h
      · exact .inl List.mem_cons_self
      · exact (ih h).imp_left (List.mem_cons_of_mem _)

theorem mem_insertAll {pairs : List (String × α)} {entries : Entries α} {pair : String × α}
    (h : pair ∈ entries.insertAll pairs) : pair ∈ entries ∨ pair ∈ pairs := by
  induction pairs generalizing entries with
  | nil => exact .inl h
  | cons first rest ih =>
    rcases ih h with h | h
    · rcases mem_insert h with h | rfl
      · exact .inl h
      · exact .inr List.mem_cons_self
    · exact .inr (List.mem_cons_of_mem _ h)

theorem mem_of_mem_ofPairs {pairs : List (String × α)} {pair : String × α}
    (h : pair ∈ ofPairs pairs) : pair ∈ pairs :=
  (mem_insertAll h).resolve_left List.not_mem_nil

theorem insert_of_not_mem {entries : Entries α} {key : String} (h : key ∉ entries.keys)
    (value : α) : entries.insert key value = entries ++ [(key, value)] := by
  induction entries with
  | nil => rfl
  | cons first rest ih =>
    simp only [keys, List.map_cons, List.mem_cons, not_or] at h
    simp [insert, Ne.symm h.1, ih h.2]

theorem insertAll_of_nodup {pairs : List (String × α)} {entries : Entries α}
    (h : ((entries ++ pairs).map (·.1)).Nodup) : entries.insertAll pairs = entries ++ pairs := by
  induction pairs generalizing entries with
  | nil => exact (List.append_nil _).symm
  | cons pair rest ih =>
    have hkey : pair.1 ∉ entries.keys := fun hmem => by
      rw [List.map_append] at h
      exact (List.nodup_append.mp h).2.2 _ hmem _ (by simp) rfl
    have happend : entries ++ pair :: rest = (entries ++ [pair]) ++ rest := by simp
    calc entries.insertAll (pair :: rest)
        = (entries.insert pair.1 pair.2).insertAll rest := rfl
      _ = (entries ++ [pair]).insertAll rest := by rw [insert_of_not_mem hkey]
      _ = (entries ++ [pair]) ++ rest := ih (happend ▸ h)
      _ = entries ++ pair :: rest := happend.symm

/-- Pairs with distinct keys are entries as they stand. -/
theorem ofPairs_of_distinct {pairs : Entries α} (h : pairs.Distinct) : ofPairs pairs = pairs :=
  insertAll_of_nodup h

theorem mem_of_get? {entries : Entries α} {key : String} {value : α}
    (h : entries.get? key = some value) : (key, value) ∈ entries := by
  induction entries with
  | nil => cases h
  | cons first rest ih =>
    obtain ⟨k, v⟩ := first
    simp only [get?] at h
    split at h
    · rename_i hk
      cases h
      exact hk ▸ List.mem_cons_self
    · exact List.mem_cons_of_mem _ (ih h)

/-- An entry is found by its key, unless another one has the same. -/
theorem get?_of_mem {entries : Entries α} (h : entries.Distinct) {key : String} {value : α}
    (hmem : (key, value) ∈ entries) : entries.get? key = some value := by
  induction entries with
  | nil => cases hmem
  | cons first rest ih =>
    obtain ⟨k, v⟩ := first
    simp only [Distinct, keys, List.map_cons, List.nodup_cons] at h
    rcases List.mem_cons.mp hmem with heq | hmem
    · cases heq
      simp [get?]
    · have hne : k ≠ key := fun heq => h.1 (heq ▸ List.mem_map_of_mem (f := (·.1)) hmem)
      rw [get?, if_neg hne]
      exact ih h.2 hmem

/-! ## Repeated keys -/

theorem get?_append (entries others : Entries α) (key : String) :
    get? (entries ++ others) key = (entries.get? key).or (get? others key) := by
  induction entries with
  | nil => rfl
  | cons first rest ih =>
    simp only [List.cons_append, get?, ih]
    split <;> rfl

/-- The last pair of a key gives its value. -/
theorem get?_insertAll (pairs : List (String × α)) (entries : Entries α) (key : String) :
    (entries.insertAll pairs).get? key = (get? pairs.reverse key).or (entries.get? key) := by
  induction pairs generalizing entries with
  | nil => rfl
  | cons pair rest ih =>
    have hpair : (entries.insert pair.1 pair.2).get? key =
        (get? [pair] key).or (entries.get? key) := by
      by_cases h : key = pair.1
      · rw [h, get?_insert_self, get?, if_pos rfl, Option.some_or]
      · rw [get?_insert_of_ne _ _ h, get?, if_neg (Ne.symm h), get?, Option.none_or]
    calc (entries.insertAll (pair :: rest)).get? key
        = ((entries.insert pair.1 pair.2).insertAll rest).get? key := rfl
      _ = (get? rest.reverse key).or ((get? [pair] key).or (entries.get? key)) := by rw [ih, hpair]
      _ = (get? (pair :: rest).reverse key).or (entries.get? key) := by
        rw [List.reverse_cons, get?_append, Option.or_assoc]

theorem get?_ofPairs (pairs : List (String × α)) (key : String) :
    (ofPairs pairs).get? key = get? pairs.reverse key := by
  rw [ofPairs, get?_insertAll, get?, Option.or_none]

/-- The first pair of a key gives its place. -/
theorem keys_insertAll (pairs : List (String × α)) (entries : Entries α) :
    (entries.insertAll pairs).keys =
      entries.keys ++ ((keys pairs).removeAll entries.keys).eraseDups := by
  induction pairs generalizing entries with
  | nil => exact (List.append_nil _).symm
  | cons pair rest ih =>
    have hstep : (entries.insertAll (pair :: rest)).keys =
        ((entries.insert pair.1 pair.2).insertAll rest).keys := rfl
    have hkeys : keys (pair :: rest) = pair.1 :: keys rest := rfl
    rw [hstep, hkeys, ih, keys_insert]
    by_cases h : pair.1 ∈ entries.keys
    · rw [if_pos h]
      simp [List.removeAll, h]
    · rw [if_neg h]
      have hfirst : (pair.1 :: keys rest).removeAll entries.keys =
          pair.1 :: (keys rest).removeAll entries.keys := by simp [List.removeAll, h]
      have hlater : (keys rest).removeAll (entries.keys ++ [pair.1]) =
          ((keys rest).removeAll entries.keys).filter fun key => !key == pair.1 := by
        simp only [List.removeAll, List.filter_filter]
        exact List.filter_congr fun key _ => by simp [Bool.and_comm, BEq.beq]
      rw [hfirst, hlater, List.eraseDups_cons, List.append_assoc]
      rfl

theorem keys_ofPairs (pairs : List (String × α)) :
    (ofPairs pairs).keys = (keys pairs).eraseDups := by
  have hall : (keys pairs).removeAll [] = keys pairs := List.filter_eq_self.mpr fun _ _ => rfl
  calc (ofPairs pairs).keys = [] ++ ((keys pairs).removeAll []).eraseDups := keys_insertAll pairs []
    _ = (keys pairs).eraseDups := by rw [hall, List.nil_append]

/-! ## Changing the values -/

/-- The values changed, the keys kept. -/
def mapValues (f : α → β) (entries : Entries α) : Entries β :=
  entries.map fun pair => (pair.1, f pair.2)

theorem get?_mapValues (f : α → β) (entries : Entries α) (key : String) :
    (entries.mapValues f).get? key = (entries.get? key).map f := by
  induction entries with
  | nil => rfl
  | cons first rest ih =>
    simp only [mapValues] at ih
    simp only [mapValues, List.map_cons, get?, ih]
    split <;> rfl

theorem mapValues_insert (f : α → β) (entries : Entries α) (key : String) (value : α) :
    (entries.insert key value).mapValues f = (entries.mapValues f).insert key (f value) := by
  induction entries with
  | nil => rfl
  | cons first rest ih =>
    simp only [mapValues] at ih
    simp only [mapValues, List.map_cons, insert]
    split <;> simp [ih]

theorem mapValues_insertAll (f : α → β) (pairs : List (String × α)) (entries : Entries α) :
    (entries.insertAll pairs).mapValues f =
      (entries.mapValues f).insertAll (mapValues f pairs) := by
  induction pairs generalizing entries with
  | nil => rfl
  | cons pair rest ih =>
    calc (entries.insertAll (pair :: rest)).mapValues f
        = ((entries.insert pair.1 pair.2).insertAll rest).mapValues f := rfl
      _ = ((entries.insert pair.1 pair.2).mapValues f).insertAll (mapValues f rest) := ih _
      _ = ((entries.mapValues f).insert pair.1 (f pair.2)).insertAll (mapValues f rest) := by
        rw [mapValues_insert]
      _ = (entries.mapValues f).insertAll (mapValues f (pair :: rest)) := rfl

theorem mapValues_ofPairs (f : α → β) (pairs : List (String × α)) :
    (ofPairs pairs).mapValues f = ofPairs (mapValues f pairs) :=
  mapValues_insertAll f pairs []

/-! ## Distinct keys -/

theorem Distinct.insert {entries : Entries α} (h : entries.Distinct) (key : String) (value : α) :
    (entries.insert key value).Distinct := by
  unfold Distinct at *
  rw [keys_insert]
  split
  · exact h
  · rename_i hm
    rw [List.nodup_append]
    refine ⟨h, by simp, ?_⟩
    intro a ha b hb hab
    simp only [List.mem_singleton] at hb
    exact hm (hb ▸ hab ▸ ha)

theorem Distinct.insertAll {entries : Entries α} (h : entries.Distinct)
    (pairs : List (String × α)) : (entries.insertAll pairs).Distinct := by
  induction pairs generalizing entries with
  | nil => exact h
  | cons pair rest ih => exact ih (h.insert pair.1 pair.2)

theorem distinct_ofPairs (pairs : List (String × α)) : (ofPairs pairs).Distinct :=
  Distinct.insertAll (by simp [Distinct, keys]) pairs

end Entries

end JsonTemplate
