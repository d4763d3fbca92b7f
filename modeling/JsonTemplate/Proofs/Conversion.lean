/-
Values as JSON documents and back. Data without host objects is always written, and what is written
reads as the same data, entries in their order and records as maps (`Value.emit_storable`). A
document that is read and written keeps everything but its numbers, which are left as their doubles
(`Value.emit_ofDocument`); the sign of a zero is lost, and makes no difference
(`conversion_loses_nothing`).
-/
import JsonTemplate.Proofs.Delivery
import JsonTemplate.Proofs.Exactness
import JsonTemplate.Proofs.Likeness
import JsonTemplate.Proofs.Pointers

namespace JsonTemplate

namespace Document

/-! ## Documents -/

mutual

/-- The numbers in a document, from the left. -/
def numbers : Document → List Number
  | number n => [n]
  | array items => numbersOfItems items
  | object entries => numbersOfEntries entries
  | _ => []

def numbersOfItems : List Document → List Number
  | [] => []
  | d :: rest => d.numbers ++ numbersOfItems rest

def numbersOfEntries : List (String × Document) → List Number
  | [] => []
  | (_, d) :: rest => d.numbers ++ numbersOfEntries rest

end

mutual

/-- The document with other numbers. -/
def mapNumbers (f : Number → Number) : Document → Document
  | number n => number (f n)
  | array items => array (mapNumbersOfItems f items)
  | object entries => object (mapNumbersOfEntries f entries)
  | d => d

def mapNumbersOfItems (f : Number → Number) : List Document → List Document
  | [] => []
  | d :: rest => d.mapNumbers f :: mapNumbersOfItems f rest

def mapNumbersOfEntries (f : Number → Number) :
    List (String × Document) → List (String × Document)
  | [] => []
  | (key, d) :: rest => (key, d.mapNumbers f) :: mapNumbersOfEntries f rest

end

mutual

/-- Where no key stands twice, none is dropped. -/
theorem distinct_of_distinct : ∀ {d : Document}, d.Distinct → d.distinct = d
  | null, _ | bool _, _ | number _, _ | string _, _ => rfl
  | array items, h => congrArg array (distinctItems_of_distinct (distinctItems_iff.mp h))
  | object entries, h => by
    rw [distinct, distinctEntries_of_distinct (distinctEntries_iff.mp h.2),
      Entries.ofPairs_of_distinct h.1]

theorem distinctItems_of_distinct : ∀ {items : List Document}, (∀ d ∈ items, d.Distinct) →
    distinctItems items = items
  | [], _ => rfl
  | d :: rest, h => by
    rw [List.forall_mem_cons] at h
    rw [distinctItems, distinct_of_distinct h.1, distinctItems_of_distinct h.2]

theorem distinctEntries_of_distinct : ∀ {entries : List (String × Document)},
    (∀ entry ∈ entries, entry.2.Distinct) → distinctEntries entries = entries
  | [], _ => rfl
  | (key, d) :: rest, h => by
    rw [List.forall_mem_cons] at h
    rw [distinctEntries, distinct_of_distinct h.1, distinctEntries_of_distinct h.2]

end

end Document

/-! ## Data -/

namespace Value

/-- A part of a value that a document has room for: a finite number, no key twice, and no object
but a record. -/
def Fits : Value → Prop
  | number n => n.isFinite = true
  | map entries | record _ entries => Entries.Distinct entries
  | host .. => False
  | _ => True

/-- Data that documents can hold. -/
def Storable (v : Value) : Prop := ∀ w, Part w v → w.Fits

theorem storable_list {items : List Value} : (list items).Storable ↔ ∀ v ∈ items, v.Storable :=
  forall_part_list.trans (and_iff_right trivial)

theorem storable_map {entries : List (String × Value)} : (map entries).Storable ↔
    Entries.Distinct entries ∧ ∀ pair ∈ entries, pair.2.Storable := forall_part_map

theorem storable_record {origin : Origin} {entries : List (String × Value)} :
    (record origin entries).Storable ↔
      Entries.Distinct entries ∧ ∀ pair ∈ entries, pair.2.Storable := forall_part_record

mutual

/-- Every record read as the map of its entries. -/
def asMaps : Value → Value
  | list items => list (asMapsOfItems items)
  | map entries | record _ entries => map (asMapsOfEntries entries)
  | v => v

def asMapsOfItems : List Value → List Value
  | [] => []
  | v :: rest => v.asMaps :: asMapsOfItems rest

def asMapsOfEntries : List (String × Value) → List (String × Value)
  | [] => []
  | (key, v) :: rest => (key, v.asMaps) :: asMapsOfEntries rest

end

/-- Data that is equal with its entries in the same order, at every depth. -/
inductive EqualInOrder : Value → Value → Prop
  | null : EqualInOrder .null .null
  | bool (b) : EqualInOrder (.bool b) (.bool b)
  | number {x y} : x.equal y = true → EqualInOrder (.number x) (.number y)
  | string (s) : EqualInOrder (.string s) (.string s)
  | list {items items'} : List.Forall₂ EqualInOrder items items' →
    EqualInOrder (.list items) (.list items')
  | map {entries entries'} : Entries.Distinct entries →
    Entries.Related EqualInOrder entries entries' → EqualInOrder (.map entries) (.map entries')

mutual

theorem EqualInOrder.equal : ∀ {v w : Value}, EqualInOrder v w → v.equal w = true
  | .null, _, h => by cases h; rfl
  | .bool _, _, h => by cases h; exact beq_self_eq_true _
  | .number _, _, h => by
    cases h with
    | number hequal => exact hequal
  | .string _, _, h => by cases h; exact beq_self_eq_true _
  | .list _, _, h => by
    cases h with
    | list hitems => exact EqualInOrder.equalItems hitems
  | .map _, _, h => by
    cases h with
    | @map entries entries' hdistinct hentries =>
      have hdistinct' : Entries.Distinct entries' := by
        rw [Entries.Distinct, ← hentries.keys]
        exact hdistinct
      rw [Value.equal, hentries.length, beq_self_eq_true, Bool.true_and]
      exact EqualInOrder.equalEntries hentries fun pair => Entries.get?_of_mem hdistinct'
  | .record .., _, h | .host .., _, h => by cases h
termination_by structural v => v

theorem EqualInOrder.equalItems : ∀ {items items' : List Value},
    List.Forall₂ EqualInOrder items items' → Value.equalItems items items' = true
  | [], _, h => by cases h; rfl
  | _ :: _, _, h => by
    cases h with
    | cons hv hrest =>
      rw [Value.equalItems, EqualInOrder.equal hv, EqualInOrder.equalItems hrest, Bool.true_and]
termination_by structural items => items

/-- Entries are looked for among all the others, and found where they stand. -/
theorem EqualInOrder.equalEntries : ∀ {entries entries' others : List (String × Value)},
    Entries.Related EqualInOrder entries entries' →
    (∀ pair ∈ entries', Entries.get? others pair.1 = some pair.2) →
    Value.equalEntries entries others = true
  | [], _, _, h, _ => by cases h; rfl
  | (_, _) :: _, _, _, h, hfound => by
    cases h with
    | cons _ hv hrest =>
      rw [List.forall_mem_cons] at hfound
      rw [Value.equalEntries, hfound.1, EqualInOrder.equalEntries hrest hfound.2, Bool.and_true]
      exact EqualInOrder.equal hv
termination_by structural entries => entries

end

/-! ## There and back -/

theorem keys_ofDocumentEntries (ds : List (String × Document)) :
    Entries.keys (ofDocumentEntries ds) = Entries.keys ds := by
  induction ds with
  | nil => rfl
  | cons entry rest ih => exact congrArg (entry.1 :: ·) ih

/-- Entries with distinct keys are written with distinct keys. -/
theorem object_of_entries {entries : List (String × Value)} {ds : List (String × Document)}
    (hkeys : Entries.Distinct entries) (hds : writeEntries .document entries = .ok ds)
    (hdistinct : ∀ entry ∈ ds, entry.2.Distinct)
    (hsame : Entries.Related EqualInOrder (ofDocumentEntries ds) (asMapsOfEntries entries)) :
    (Document.object ds).Distinct ∧
      EqualInOrder (ofDocument (.object ds)) (map (asMapsOfEntries entries)) := by
  have hwritten : Entries.Distinct ds := by
    rw [Entries.Distinct, writeEntries_keys hds]
    exact hkeys
  have hread : Entries.Distinct (ofDocumentEntries ds) := by
    rw [Entries.Distinct, keys_ofDocumentEntries]
    exact hwritten
  exact ⟨⟨hwritten, Document.distinctEntries_iff.mpr hdistinct⟩, .map hread hsame⟩

mutual

/-- **Data is written**, and what is written reads as the same data. -/
theorem emit_storable : ∀ {v : Value}, v.Storable →
    ∃ d, v.emit = .ok d ∧ d.Distinct ∧ EqualInOrder (ofDocument d) v.asMaps
  | null, _ => ⟨.null, rfl, trivial, .null⟩
  | bool b, _ => ⟨.bool b, rfl, trivial, .bool b⟩
  | number x, h => by
    have hfinite : x.isFinite = true := h _ .self
    refine ⟨.number (.ofBinary64 x), ?_, trivial,
      .number ((Document.Number.ofBinary64_denotes x).equal hfinite)⟩
    rw [emit, write, Document.ofBinary64_of_finite hfinite]
    rfl
  | string s, _ => ⟨.string s, rfl, trivial, .string s⟩
  | list items, h => by
    obtain ⟨ds, hds, hdistinct, hsame⟩ := emitItems_storable (storable_list.mp h)
    exact ⟨.array ds, by rw [emit, write, hds]; rfl, Document.distinctItems_iff.mpr hdistinct,
      .list hsame⟩
  | map entries, h => by
    obtain ⟨hkeys, hentries⟩ := storable_map.mp h
    obtain ⟨ds, hds, hdistinct, hsame⟩ := emitEntries_storable hentries
    exact ⟨.object ds, by rw [emit, write, hds]; rfl, object_of_entries hkeys hds hdistinct hsame⟩
  | record _ entries, h => by
    obtain ⟨hkeys, hentries⟩ := storable_record.mp h
    obtain ⟨ds, hds, hdistinct, hsame⟩ := emitEntries_storable hentries
    exact ⟨.object ds, by rw [emit, write, hds]; rfl, object_of_entries hkeys hds hdistinct hsame⟩
  | host .., h => (h _ .self).elim

theorem emitItems_storable : ∀ {items : List Value}, (∀ v ∈ items, v.Storable) →
    ∃ ds, writeItems .document items = .ok ds ∧ (∀ d ∈ ds, d.Distinct) ∧
      List.Forall₂ EqualInOrder (ofDocuments ds) (asMapsOfItems items)
  | [], _ => ⟨[], rfl, List.forall_mem_nil _, .nil⟩
  | v :: rest, h => by
    rw [List.forall_mem_cons] at h
    obtain ⟨d, hd, hdistinct, hsame⟩ := emit_storable h.1
    obtain ⟨ds, hds, hdistincts, hsames⟩ := emitItems_storable h.2
    rw [emit] at hd
    exact ⟨d :: ds, by rw [writeItems, hd, hds]; rfl,
      List.forall_mem_cons.mpr ⟨hdistinct, hdistincts⟩, .cons hsame hsames⟩

theorem emitEntries_storable : ∀ {entries : List (String × Value)},
    (∀ pair ∈ entries, pair.2.Storable) →
    ∃ ds, writeEntries .document entries = .ok ds ∧ (∀ entry ∈ ds, entry.2.Distinct) ∧
      Entries.Related EqualInOrder (ofDocumentEntries ds) (asMapsOfEntries entries)
  | [], _ => ⟨[], rfl, List.forall_mem_nil _, .nil⟩
  | (key, v) :: rest, h => by
    rw [List.forall_mem_cons] at h
    obtain ⟨d, hd, hdistinct, hsame⟩ := emit_storable h.1
    obtain ⟨ds, hds, hdistincts, hsames⟩ := emitEntries_storable h.2
    rw [emit] at hd
    exact ⟨(key, d) :: ds, by rw [writeEntries, hd, hds]; rfl,
      List.forall_mem_cons.mpr ⟨hdistinct, hdistincts⟩, .cons key hsame hsames⟩

end

mutual

theorem ofDocument_storable : ∀ {d : Document}, d.Distinct → (∀ n ∈ d.numbers, n.InRange) →
    (ofDocument d).Storable
  | .null, _, _ | .bool _, _, _ | .string _, _, _ => by rintro w ⟨⟩; trivial
  | .number n, _, h => by
    rintro w ⟨⟩
    exact (List.forall_mem_singleton.mp h).isFinite
  | .array items, hd, h =>
    storable_list.mpr (ofDocuments_storable (Document.distinctItems_iff.mp hd) h)
  | .object entries, hd, h => by
    refine storable_map.mpr
      ⟨?_, ofDocumentEntries_storable (Document.distinctEntries_iff.mp hd.2) h⟩
    rw [Entries.Distinct, keys_ofDocumentEntries]
    exact hd.1

theorem ofDocuments_storable : ∀ {ds : List Document}, (∀ d ∈ ds, d.Distinct) →
    (∀ n ∈ Document.numbersOfItems ds, n.InRange) → ∀ v ∈ ofDocuments ds, v.Storable
  | [], _, _ => nofun
  | d :: rest, hd, h => by
    rw [List.forall_mem_cons] at hd
    rw [Document.numbersOfItems, List.forall_mem_append] at h
    exact List.forall_mem_cons.mpr ⟨ofDocument_storable hd.1 h.1, ofDocuments_storable hd.2 h.2⟩

theorem ofDocumentEntries_storable : ∀ {ds : List (String × Document)},
    (∀ entry ∈ ds, entry.2.Distinct) → (∀ n ∈ Document.numbersOfEntries ds, n.InRange) →
    ∀ pair ∈ ofDocumentEntries ds, pair.2.Storable
  | [], _, _ => nofun
  | (_, d) :: rest, hd, h => by
    rw [List.forall_mem_cons] at hd
    rw [Document.numbersOfEntries, List.forall_mem_append] at h
    exact List.forall_mem_cons.mpr
      ⟨ofDocument_storable hd.1 h.1, ofDocumentEntries_storable hd.2 h.2⟩

end

mutual

/-- **A document is written as it was read**, each number as its double. -/
theorem emit_ofDocument : ∀ {d : Document}, (∀ n ∈ d.numbers, n.InRange) →
    (ofDocument d).emit = .ok (d.mapNumbers fun n => .ofBinary64 n.toBinary64)
  | .null, _ | .bool _, _ | .string _, _ => rfl
  | .number n, h => congrArg Except.ok
    (Document.ofBinary64_of_finite (List.forall_mem_singleton.mp h).isFinite)
  | .array items, h => by
    rw [ofDocument, emit, write, writeItems_ofDocuments h]
    rfl
  | .object entries, h => by
    rw [ofDocument, emit, write, writeEntries_ofDocumentEntries h]
    rfl

theorem writeItems_ofDocuments : ∀ {ds : List Document},
    (∀ n ∈ Document.numbersOfItems ds, n.InRange) → writeItems .document (ofDocuments ds) =
      .ok (Document.mapNumbersOfItems (fun n => .ofBinary64 n.toBinary64) ds)
  | [], _ => rfl
  | d :: rest, h => by
    rw [Document.numbersOfItems, List.forall_mem_append] at h
    have hd := emit_ofDocument h.1
    rw [emit] at hd
    rw [ofDocuments, writeItems, hd, writeItems_ofDocuments h.2]
    rfl

theorem writeEntries_ofDocumentEntries : ∀ {ds : List (String × Document)},
    (∀ n ∈ Document.numbersOfEntries ds, n.InRange) →
    writeEntries .document (ofDocumentEntries ds) =
      .ok (Document.mapNumbersOfEntries (fun n => .ofBinary64 n.toBinary64) ds)
  | [], _ => rfl
  | (key, d) :: rest, h => by
    rw [Document.numbersOfEntries, List.forall_mem_append] at h
    have hd := emit_ofDocument h.1
    rw [emit] at hd
    rw [ofDocumentEntries, writeEntries, hd, writeEntries_ofDocumentEntries h.2]
    rfl

end

/-- What is written with no key twice is a document as it stands. -/
theorem toDocument_of_emit {v : Value} {d : Document} (h : v.emit = .ok d) (hd : d.Distinct) :
    v.toDocument = .ok d := by
  rw [toDocument, h]
  exact congrArg Except.ok (Document.distinct_of_distinct hd)

end Value

open Value (EqualInOrder ofDocument)

/-- **Conversion to JSON loses nothing.** Data of any depth has a document, which reads as the data
with every record as a map: equal, and with the entries of every map in the same order. A document
that is read as a value has the document again, but that every number is its double, exactly. -/
theorem conversion_loses_nothing :
    (∀ v : Value, v.Storable → ∃ d, v.toDocument = .ok d ∧
      (ofDocument d).equal v.asMaps = true ∧ EqualInOrder (ofDocument d) v.asMaps) ∧
    (∀ d : Document, d.Distinct → (∀ n ∈ d.numbers, n.InRange) →
      (ofDocument d).toDocument = .ok (d.mapNumbers fun n => .ofBinary64 n.toBinary64)) ∧
    ∀ x : Binary64, (Document.Number.ofBinary64 x).Denotes x := by
  refine ⟨fun v hv => ?_, fun d hdistinct hnumbers => ?_, Document.Number.ofBinary64_denotes⟩
  · obtain ⟨d, hd, hdistinct, hsame⟩ := Value.emit_storable hv
    exact ⟨d, Value.toDocument_of_emit hd hdistinct, hsame.equal, hsame⟩
  · have hwritten := Value.emit_ofDocument hnumbers
    obtain ⟨d', hd', hdistinct', -⟩ :=
      Value.emit_storable (Value.ofDocument_storable hdistinct hnumbers)
    obtain rfl : d' = d.mapNumbers fun n => .ofBinary64 n.toBinary64 :=
      Except.ok.inj (hd'.symm.trans hwritten)
    exact Value.toDocument_of_emit hwritten hdistinct'

/-- A record in a map beside a negative zero, and a document with a number between two doubles. -/
theorem conversion_loses_nothing_of_nested :
    (∃ d, (Value.map [("b", .list [.number Binary64.zero.neg, .null]),
        ("a", .record ⟨[3]⟩ [("z", .string "s"), ("y", .bool true)])]).toDocument = .ok d ∧
      (ofDocument d).equal (.map [("b", .list [.number Binary64.zero.neg, .null]),
        ("a", .map [("z", .string "s"), ("y", .bool true)])]) = true) ∧
    (ofDocument (.object [("n", .number (.integer 9007199254740993)),
        ("x", .array [.number (.double (.ofNat 3))])])).toDocument =
      .ok (.object [("n", .number (.integer 9007199254740992)),
        ("x", .array [.number (.integer 3)])]) := by
  obtain ⟨hvalues, hdocuments, -⟩ := conversion_loses_nothing
  constructor
  · have hlist : (Value.list [.number Binary64.zero.neg, .null]).Storable := by
      refine Value.storable_list.mpr ?_
      simp only [List.forall_mem_cons]
      refine ⟨?_, ?_, List.forall_mem_nil _⟩
      · rintro w ⟨⟩
        exact show Binary64.zero.neg.isFinite = true by decide +kernel
      · rintro w ⟨⟩
        trivial
    have hrecord : (Value.record ⟨[3]⟩ [("z", .string "s"), ("y", .bool true)]).Storable := by
      refine Value.storable_record.mpr ⟨by simp [Entries.Distinct, Entries.keys], ?_⟩
      simp only [List.forall_mem_cons]
      refine ⟨?_, ?_, List.forall_mem_nil _⟩ <;>
      · rintro w ⟨⟩
        trivial
    have hmap : (Value.map [("b", .list [.number Binary64.zero.neg, .null]),
        ("a", .record ⟨[3]⟩ [("z", .string "s"), ("y", .bool true)])]).Storable := by
      refine Value.storable_map.mpr ⟨by simp [Entries.Distinct, Entries.keys], ?_⟩
      simp only [List.forall_mem_cons]
      exact ⟨hlist, hrecord, List.forall_mem_nil _⟩
    obtain ⟨d, hd, hequal, -⟩ := hvalues _ hmap
    exact ⟨d, hd, hequal⟩
  · have hwritten : Document.Number.ofBinary64
          (Document.Number.integer 9007199254740993).toBinary64 = .integer 9007199254740992 ∧
        Document.Number.ofBinary64 (Document.Number.double (.ofNat 3)).toBinary64 =
          .integer 3 := by
      decide +kernel
    have hdistinct : (Document.object [("n", .number (.integer 9007199254740993)),
        ("x", .array [.number (.double (.ofNat 3))])]).Distinct :=
      ⟨by simp [Entries.Distinct, Entries.keys], trivial, ⟨trivial, trivial⟩, trivial⟩
    rw [hdocuments _ hdistinct ?_]
    · simp only [Document.mapNumbers, Document.mapNumbersOfEntries, Document.mapNumbersOfItems,
        hwritten]
    · simp only [Document.numbers, Document.numbersOfEntries, Document.numbersOfItems,
        List.append_nil, List.cons_append, List.nil_append, List.forall_mem_cons]
      exact ⟨show _ ∧ _ by decide, show Binary64.isFinite _ = true by decide +kernel,
        List.forall_mem_nil _⟩

end JsonTemplate
