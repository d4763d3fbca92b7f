/-
What is delivered. In the values of a template without host functions every object is a record,
whose keys stand once and are found (`Value.Orderly`), so the writer never fails on one
(`Value.emit_ok`). Under the default policy no failure ends an expansion either, and with that a
template always gives a text, with an object for an object and an array for an array
(`default_policy_delivers`).
-/
import JsonTemplate.Proofs.Expansion
import JsonTemplate.Proofs.Hostless

namespace JsonTemplate

/-! ## Objects in values -/

namespace Value

/-- A value itself, and what the lists, maps and records in it hold at any depth. -/
inductive Part (w : Value) : Value → Prop
  | self : Part w w
  | item {v : Value} {items : List Value} : Part w v → v ∈ items → Part w (.list items)
  | entry {pair : String × Value} {entries : List (String × Value)} :
      Part w pair.2 → pair ∈ entries → Part w (.map entries)
  | field {pair : String × Value} {origin : Origin} {entries : List (String × Value)} :
      Part w pair.2 → pair ∈ entries → Part w (.record origin entries)

/-- No part of the value is an object. -/
def ObjectFree (v : Value) : Prop := ∀ w, Part w v → w.face? = none

/-- An object that is a record: it lists names, none of them twice, and has a value for each. -/
def IsRecord (v : Value) (face : Face) : Prop :=
  ∃ (origin : Origin) (entries : Entries Value) (names : List String),
    v = .record origin entries ∧ face.keys = names.map .string ∧ names.Nodup ∧
      ∀ name ∈ names, ∃ value, face.get name = .ok value

/-- Every object in the value is a record. -/
def Orderly (v : Value) : Prop := ∀ w, Part w v → ∀ face, w.face? = some face → w.IsRecord face

theorem ObjectFree.orderly {v : Value} (h : v.ObjectFree) : v.Orderly := by
  intro w hw face hface
  rw [h w hw] at hface
  cases hface

/-- A part of a part is a part. -/
theorem Part.trans {u w v : Value} (hu : Part u w) (hw : Part w v) : Part u v := by
  induction hw with
  | self => exact hu
  | item _ hv ih => exact .item ih hv
  | entry _ hpair ih => exact .entry ih hpair
  | field _ hpair ih => exact .field ih hpair

section Parts

variable {R : Value → Prop}

theorem forall_part_list {items : List Value} :
    (∀ w, Part w (.list items) → R w) ↔ R (.list items) ∧ ∀ v ∈ items, ∀ w, Part w v → R w := by
  constructor
  · exact fun h => ⟨h _ .self, fun v hv w hw => h w (.item hw hv)⟩
  · rintro ⟨hself, hitems⟩ w (_ | ⟨hw, hv⟩)
    · exact hself
    · exact hitems _ hv w hw

theorem forall_part_map {entries : List (String × Value)} :
    (∀ w, Part w (.map entries) → R w) ↔
      R (.map entries) ∧ ∀ pair ∈ entries, ∀ w, Part w pair.2 → R w := by
  constructor
  · exact fun h => ⟨h _ .self, fun pair hpair w hw => h w (.entry hw hpair)⟩
  · rintro ⟨hself, hentries⟩ w (_ | _ | ⟨hw, hpair⟩)
    · exact hself
    · exact hentries _ hpair w hw

theorem forall_part_record {origin : Origin} {entries : List (String × Value)} :
    (∀ w, Part w (.record origin entries) → R w) ↔
      R (.record origin entries) ∧ ∀ pair ∈ entries, ∀ w, Part w pair.2 → R w := by
  constructor
  · exact fun h => ⟨h _ .self, fun pair hpair w hw => h w (.field hw hpair)⟩
  · rintro ⟨hself, hentries⟩ w (_ | _ | _ | ⟨hw, hpair⟩)
    · exact hself
    · exact hentries _ hpair w hw

end Parts

/-- A record is one if it lists no key twice. -/
theorem isRecord_ofEntries {origin : Origin} {entries : Entries Value} :
    (record origin entries).IsRecord (.ofEntries origin entries) ↔ entries.Distinct := by
  constructor
  · rintro ⟨_, _, names, -, hkeys, hnodup, -⟩
    have hnames : entries.keys = names :=
      List.map_injective_iff.mpr (fun _ _ => Value.string.inj) hkeys
    rw [Entries.Distinct, hnames]
    exact hnodup
  · intro h
    refine ⟨origin, entries, entries.keys, rfl, rfl, h, fun name hname => ?_⟩
    obtain ⟨value, hvalue⟩ := Option.isSome_iff_exists.mp ((entries.mem_keys_iff name).mp hname)
    exact ⟨value, by simp only [Face.ofEntries, hvalue]⟩

theorem orderly_list {items : List Value} : (list items).Orderly ↔ ∀ v ∈ items, v.Orderly := by
  unfold Orderly
  rw [forall_part_list]
  exact and_iff_right nofun

theorem orderly_map {entries : List (String × Value)} :
    (map entries).Orderly ↔ ∀ pair ∈ entries, pair.2.Orderly := by
  unfold Orderly
  rw [forall_part_map]
  exact and_iff_right nofun

theorem orderly_record {origin : Origin} {entries : List (String × Value)} :
    (record origin entries).Orderly ↔
      Entries.Distinct entries ∧ ∀ pair ∈ entries, pair.2.Orderly := by
  unfold Orderly
  rw [forall_part_record]
  refine and_congr_left' ?_
  rw [← @isRecord_ofEntries origin]
  exact ⟨fun h => h _ rfl, fun h face hface => by cases hface; exact h⟩

theorem not_orderly_host {origin : Origin} {type : ObjectType}
    {get : String → Except Failure Value} {contains : String → Bool} {keys : List Value}
    {size : Nat} : ¬ (host origin type get contains keys size).Orderly := by
  intro h
  obtain ⟨_, _, _, hrecord, -⟩ := h _ .self _ rfl
  cases hrecord

/-- A value that is no object and has no parts. -/
theorem ofLiteral_objectFree (l : Literal) : (ofLiteral l).ObjectFree := by
  cases l <;> (rintro w ⟨⟩; rfl)

mutual

theorem ofDocument_objectFree : ∀ d : Document, (ofDocument d).ObjectFree
  | .null | .bool _ | .number _ | .string _ => by rintro w ⟨⟩; rfl
  | .array items => forall_part_list.mpr ⟨rfl, ofDocuments_objectFree items⟩
  | .object entries => forall_part_map.mpr ⟨rfl, ofDocumentEntries_objectFree entries⟩

theorem ofDocuments_objectFree : ∀ ds : List Document, ∀ v ∈ ofDocuments ds, v.ObjectFree
  | [] => nofun
  | d :: rest => List.forall_mem_cons.mpr ⟨ofDocument_objectFree d, ofDocuments_objectFree rest⟩

theorem ofDocumentEntries_objectFree : ∀ ds : List (String × Document),
    ∀ pair ∈ ofDocumentEntries ds, pair.2.ObjectFree
  | [] => nofun
  | (_, d) :: rest =>
    List.forall_mem_cons.mpr ⟨ofDocument_objectFree d, ofDocumentEntries_objectFree rest⟩

end

/-- That objects are records goes through everything that values answer. -/
theorem orderly_invariant : Invariant Orderly (fun _ => True) where
  literal l := (ofLiteral_objectFree l).orderly
  list _ := orderly_list
  ofMap _ h := orderly_map.mpr fun pair hmem => h pair (Entries.mem_of_mem_ofPairs hmem)
  record _ pairs h := orderly_record.mpr
    ⟨Entries.distinct_ofPairs pairs, fun pair hmem => h pair (Entries.mem_of_mem_ofPairs hmem)⟩
  entry _ _ _ h hget := orderly_map.mp h _ (Entries.mem_of_get? hget)
  get v face key hv hface := by
    cases v with
    | record origin entries =>
      cases hface
      exact Face.get_ofEntries (orderly_record.mp hv).2 trivial origin
    | host => exact absurd hv not_orderly_host
    | _ => cases hface
  keys v face hv hface k hk := by
    obtain ⟨_, _, names, -, hkeys, -⟩ := hv v .self face hface
    rw [hkeys] at hk
    obtain ⟨name, -, rfl⟩ := List.mem_map.mp hk
    exact (ofLiteral_objectFree (.string name)).orderly
  failed _ _ _ := trivial
  withSpan _ _ _ := trivial

/-! ## Writing -/

/-- Entries are written under their keys. -/
theorem writeEntries_keys {α : Type} {w : Document.Writer α} :
    ∀ {entries : List (String × Value)} {written : List (String × α)},
      writeEntries w entries = .ok written → Entries.keys written = Entries.keys entries
  | [], _, h => by cases h; rfl
  | (key, v) :: rest, _, h => by
    simp only [writeEntries, bind_eq_ok] at h
    obtain ⟨_, -, _, hrest, h⟩ := h
    cases h
    exact congrArg (key :: ·) (writeEntries_keys hrest)

/-- As many entries are written as there are. -/
theorem writeEntries_length {α : Type} {w : Document.Writer α} {entries : List (String × Value)}
    {written : List (String × α)} (h : writeEntries w entries = .ok written) :
    entries.length = written.length := by
  simpa [Entries.keys] using congrArg List.length (writeEntries_keys h).symm

mutual

/-- **What holds no object but records is written**, and its text is the text of its document. -/
theorem emit_ok : ∀ {v : Value}, v.Orderly → ∃ d, v.emit = .ok d ∧ v.toJson = .ok d.text
  | null, _ | bool _, _ | number _, _ | string _, _ => ⟨_, rfl, rfl⟩
  | list items, h => by
    obtain ⟨ds, hds, htexts⟩ := emitItems_ok (orderly_list.mp h)
    exact ⟨.array ds, by rw [emit, write, hds]; rfl, by rw [toJson, write, htexts]; rfl⟩
  | map entries, h => by
    obtain ⟨ds, hds, htexts⟩ := emitEntries_ok (orderly_map.mp h)
    exact ⟨.object ds, by rw [emit, write, hds]; rfl, by
      rw [toJson, write, htexts, writeEntries_length hds]; rfl⟩
  | record _ entries, h => by
    obtain ⟨ds, hds, htexts⟩ := emitEntries_ok (orderly_record.mp h).2
    exact ⟨.object ds, by rw [emit, write, hds]; rfl, by
      rw [toJson, write, htexts, writeEntries_length hds]; rfl⟩
  | host .., h => absurd h not_orderly_host

theorem emitItems_ok : ∀ {items : List Value}, (∀ v ∈ items, v.Orderly) →
    ∃ ds, writeItems .document items = .ok ds ∧
      writeItems .text items = .ok (Document.itemTexts ds)
  | [], _ => ⟨[], rfl, rfl⟩
  | v :: rest, h => by
    rw [List.forall_mem_cons] at h
    obtain ⟨d, hd, htext⟩ := emit_ok h.1
    obtain ⟨ds, hds, htexts⟩ := emitItems_ok h.2
    rw [emit] at hd
    rw [toJson] at htext
    exact ⟨d :: ds, by rw [writeItems, hd, hds]; rfl, by rw [writeItems, htext, htexts]; rfl⟩

theorem emitEntries_ok : ∀ {entries : List (String × Value)},
    (∀ pair ∈ entries, pair.2.Orderly) → ∃ ds, writeEntries .document entries = .ok ds ∧
      writeEntries .text entries = .ok (Document.entryTexts ds)
  | [], _ => ⟨[], rfl, rfl⟩
  | (key, v) :: rest, h => by
    rw [List.forall_mem_cons] at h
    obtain ⟨d, hd, htext⟩ := emit_ok h.1
    obtain ⟨ds, hds, htexts⟩ := emitEntries_ok h.2
    rw [emit] at hd
    rw [toJson] at htext
    exact ⟨(key, d) :: ds, by rw [writeEntries, hd, hds]; rfl,
      by rw [writeEntries, htext, htexts]; rfl⟩

end

end Value

/-! ## The root -/

namespace Document

/-- An output stands for a template: an object with some of the keys of an object, in their order,
and an array for anything else. -/
def Follows (output : Document) : Document → Prop
  | .object entries => ∃ out, output = .object out ∧
      (Entries.keys out).Sublist (Entries.keys entries)
  | _ => ∃ items, output = .array items

end Document

/-- Inserted pairs bring some of their keys, in their order. -/
theorem Entries.keys_insertAll_sublist {α : Type} : ∀ (pairs : List (String × α))
    (entries : Entries α),
    (entries.insertAll pairs).keys.Sublist (entries.keys ++ Entries.keys pairs)
  | [], entries => List.sublist_append_left _ _
  | (key, value) :: rest, entries => by
    have ih := keys_insertAll_sublist rest (entries.insert key value)
    have hkeys : (entries.insert key value).keys.Sublist (entries.keys ++ [key]) := by
      rw [keys_insert]
      split
      · exact List.sublist_append_left _ _
      · exact List.Sublist.refl _
    have hrest := ih.trans (hkeys.append_right (Entries.keys rest))
    rw [List.append_assoc] at hrest
    exact hrest

namespace Tree

theorem expandEntries_keys {policy : ErrorPolicy} {context : Context} {origin : Origin} :
    ∀ {entries : List (String × Tree)} {part : Nat} {out : List (String × Value)},
      expandEntries policy context entries origin part = .ok out →
      (Entries.keys out).Sublist (Entries.keys entries)
  | [], _, _, h => by simp only [expandEntries] at h; cases h; exact List.Sublist.refl _
  | (key, _) :: _, _, _, h => by
    simp only [expandEntries, bind_eq_ok] at h
    obtain ⟨first, -, _, hrest, h⟩ := h
    have ih := expandEntries_keys hrest
    cases first with
    | none => cases h; exact ih.cons key
    | some value => cases h; exact ih.cons_cons key

/-- What the expansion of a compiled text is written as follows the text. -/
theorem expand_follows {env : Environment} {text : String} {root : Document}
    (hread : Document.read? text = some root) {t : Tree} (ht : compile env text = .ok t)
    {policy : ErrorPolicy} {context : Context} {origin : Origin} {value : Value}
    (hvalue : t.expand policy context origin = .ok value) {d : Document}
    (hd : value.emit = .ok d) : d.Follows root := by
  rw [compile, hread] at ht
  simp only [expand, bind_eq_ok] at hvalue
  obtain ⟨added, hadded, hvalue⟩ := hvalue
  cases hvalue
  cases root with
  | object pairs =>
    simp only [compileDocument, ofDocument, bind_eq_ok] at ht
    obtain ⟨entries, hentries, ht⟩ := ht
    cases ht
    simp only [expandNode, bind_eq_ok] at hadded
    obtain ⟨out, hout, hadded⟩ := hadded
    cases hadded
    simp only [Option.getD_some, Value.emit, Value.write, bind_eq_ok] at hd
    obtain ⟨ds, hds, hd⟩ := hd
    cases hd
    refine ⟨ds, rfl, ?_⟩
    -- What is written has the keys of the output, and these are among those of the compiled tree.
    rw [Value.writeEntries_keys hds, ← ofEntries_keys hentries]
    calc List.Sublist (Entries.keys (Entries.ofPairs out)) (Entries.keys out) :=
          Entries.keys_insertAll_sublist out []
      List.Sublist _ (Entries.keys (Entries.ofPairs entries)) := expandEntries_keys hout
      List.Sublist _ (Entries.keys entries) := Entries.keys_insertAll_sublist entries []
  | array _ =>
    simp only [compileDocument, ofDocument, bind_eq_ok] at ht
    obtain ⟨items, -, ht⟩ := ht
    cases ht
    simp only [expandNode, bind_eq_ok] at hadded
    obtain ⟨out, -, hadded⟩ := hadded
    cases hadded
    simp only [Option.getD_some, Value.emit, Value.write, bind_eq_ok] at hd
    obtain ⟨ds, -, hd⟩ := hd
    cases hd
    exact ⟨ds, rfl⟩
  | _ => cases ht

end Tree

/-! ## Templates -/

namespace TemplateOptions

/-- What the host gives to a template is data, and no functions. -/
structure DataOnly (o : TemplateOptions) : Prop where
  functions : o.functions = []
  reference : ∀ v ∈ o.reference, v.ObjectFree
  constants : ∀ pair ∈ o.constants, pair.2.ObjectFree

theorem DataOnly.hostless {o : TemplateOptions} (h : o.DataOnly) :
    o.Hostless Value.Orderly (fun _ => True) where
  closed := Value.orderly_invariant.toClosed
  functions := h.functions
  reference v hv := (h.reference v hv).orderly
  constants pair hpair := (h.constants pair hpair).orderly
  removed := trivial
  refused _ _ _ _ := trivial
  undeclared _ _ := trivial

end TemplateOptions

/-- An expression has an orderly value, if any, where names stand for orderly values. -/
def Environment.Orderly (env : Environment) : Prop :=
  ∀ (e : Expr) (origin : Origin) (context : Context) (v : Value),
    (∀ x w, context x = some w → w.Orderly) → e.eval env origin context = .ok v → v.Orderly

theorem TemplateOptions.Equipped.orderly {env : Environment}
    (henv : Equipped Value.Orderly (fun _ => True) env) : env.Orderly := by
  intro e origin context v hcontext hv
  have hkeeps : Keeps Value.Orderly (fun _ => True) env context e.calls e.free := by
    refine ⟨fun name _ origin receiver args hreceiver hargs => ?_, fun x _ => ?_⟩
    · exact Environment.call_keeps (fun _ _ => trivial) (fun f hf => (henv name f hf).2) origin
        hreceiver hargs
    · unfold Context.resolve
      split
      · rename_i hget
        exact hcontext x _ hget
      · trivial
  have hkept := Expr.eval_keeps Value.orderly_invariant e origin hkeeps
  rw [hv] at hkept
  exact hkept

/-- **Under the default policy an expansion always delivers.** Names of the template and its
fragments stand for values whose objects are records, and so do all expressions; and on every
input the expansion gives a value that is written, as an object with some of the template's keys
in their order or as an array. -/
theorem default_policy_delivers (o : TemplateOptions) (text : String) (t : Template)
    (hdata : o.DataOnly) (hmissing : o.missingKeyErrors = false) (hstrict : o.strictErrors = false)
    (ht : Template.compile text o = .ok t) :
    ((∀ (data : Document) (x : String) (v : Value),
        (t.base.bind "data" (.ofDocument data)).context x = some v → v.Orderly) ∧
      (o.environment t.fragments).Orderly) ∧
    ((∀ (args : List Value) (x : String) (v : Value), (∀ arg ∈ args, arg.Orderly) →
        (t.base.bind "args" (.list args)).context x = some v → v.Orderly) ∧
      o.fragmentEnvironment.Orderly) ∧
    ∃ root, Document.read? text = some root ∧ ∀ (origin : Origin) (data : Document),
      ∃ value d, t.expandValue origin (.ofDocument data) = .ok value ∧ value.Orderly ∧
        (∀ w : Value, w.Part value → ∃ part, w.emit = .ok part) ∧ value.emit = .ok d ∧
        t.expand origin data = .ok d.text ∧ d.Follows root := by
  have hhostless := hdata.hostless
  obtain ⟨fragments, tree, hfragments, htree, rfl⟩ := Template.compile_eq_ok.mp ht
  obtain ⟨root, hread, -⟩ := Tree.compile_eq_ok htree
  refine ⟨⟨fun data _ _ hget => ?_, ?_⟩, ⟨fun args _ _ hargs hget => ?_, ?_⟩, root, hread,
    fun origin data => ?_⟩
  · exact hhostless.context_keeps (Value.ofDocument_objectFree data).orderly hget
  · exact (hhostless.environment_equipped Value.orderly_invariant hfragments).orderly
  · exact hhostless.context_keeps (Value.orderly_list.mpr hargs) hget
  · exact hhostless.fragmentEnvironment_equipped.orderly
  · have hkept := hhostless.expandValue_keeps Value.orderly_invariant ht
      (Value.ofDocument_objectFree data).orderly origin
    have hlenient : ∀ f, o.policy.raises f = false := fun f => by
      simp [TemplateOptions.policy, ErrorPolicy.raises, hmissing, hstrict]
    obtain ⟨value, hvalue⟩ : ∃ value, tree.expand o.policy
        (o.baseActivation.bind "data" (.ofDocument data)).context origin = .ok value := by
      rw [← failure?_eq_none, Tree.failure?_expand, Tree.firstRaised_eq_none]
      exact fun _ _ f _ => hlenient f
    rw [Template.expandValue, hvalue] at hkept
    obtain ⟨d, hd, htext⟩ := Value.emit_ok hkept
    refine ⟨value, d, hvalue, hkept, fun w hw => ?_, hd, ?_,
      Tree.expand_follows hread htree hvalue hd⟩
    · obtain ⟨part, hpart, -⟩ := Value.emit_ok fun u hu => hkept u (hu.trans hw)
      exact ⟨part, hpart⟩
    · rw [Template.expand, Template.expandTo, Template.expandValue, hvalue]
      simp only [htext]
      rfl

/-- A template that calls a fragment and fails in an entry and in an item. -/
theorem default_policy_delivers_of_fragment :
    ∃ t, Template.compile
        "\x7b\"a\": \"1 / 0\", \"b\": \"[fragment('f', data, limit)]\", \"c\": [\"ref.x\"]\x7d"
        ⟨some (.map []), false, false, [], [("limit", .ofNat 3)],
          [("f", "\x7b\"m\": \"args\"\x7d")]⟩ = .ok t ∧
      ∃ root, Document.read?
          "\x7b\"a\": \"1 / 0\", \"b\": \"[fragment('f', data, limit)]\", \"c\": [\"ref.x\"]\x7d" =
          some root ∧
        ∀ origin data, ∃ d : Document, t.expand origin data = .ok d.text ∧ d.Follows root := by
  obtain ⟨t, ht⟩ : ∃ t, Template.compile
      "\x7b\"a\": \"1 / 0\", \"b\": \"[fragment('f', data, limit)]\", \"c\": [\"ref.x\"]\x7d"
      ⟨some (.map []), false, false, [], [("limit", .ofNat 3)],
        [("f", "\x7b\"m\": \"args\"\x7d")]⟩ = .ok t :=
    failure?_eq_none.mp (by decide +kernel)
  have hdata : TemplateOptions.DataOnly ⟨some (.map []), false, false, [], [("limit", .ofNat 3)],
      [("f", "\x7b\"m\": \"args\"\x7d")]⟩ := by
    refine ⟨rfl, fun v hv => ?_, fun pair hpair => ?_⟩
    · cases hv
      exact Value.ofDocument_objectFree (.object [])
    · rw [List.mem_singleton.mp hpair]
      exact Value.ofLiteral_objectFree (.number (.ofNat 3))
  obtain ⟨-, -, root, hroot, h⟩ := default_policy_delivers _ _ t hdata rfl rfl ht
  refine ⟨t, ht, root, hroot, fun origin data => ?_⟩
  obtain ⟨_, d, -, -, -, -, hexpand, hfollows⟩ := h origin data
  exact ⟨d, hexpand, hfollows⟩

end JsonTemplate
