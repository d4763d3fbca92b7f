/-
Records and maps. A record and a map with the same entries answer alike whatever an expression
asks of a container (`Observation`), and are written alike, even if the record is written key by
key as any other object (`write_object`). Only what they are tells them apart: their types, their
texts, and that a record is equal to no other instance (`record_observed_as_map`).
-/
import JsonTemplate.Proofs.Outcome
import JsonTemplate.Environment
import JsonTemplate.Eval.Basic
import JsonTemplate.Value.Json

namespace JsonTemplate

/-! ## Values -/

/-- The object that shows the face, known by its answers alone. -/
def Face.object (face : Face) : Value :=
  .host face.origin face.type face.get face.contains face.keys face.size

namespace Value

section Answers

variable (made : Origin) (entries : Entries Value)

theorem select_record (field : String) :
    (record made entries).select field = (map entries).select field := by
  simp only [select, allowing?, face?, Option.filter, ObjectType.record, Face.ofEntries, if_true]
  rfl

theorem index_record (i : Value) : (record made entries).index i = (map entries).index i := by
  simp only [index, allowing?, face?, Option.filter, ObjectType.record, Face.ofEntries, if_true]
  cases i.mapKey with
  | error f => rfl
  | ok key => exact select_record made entries key

theorem hasField_record (field : String) :
    (record made entries).hasField field = (map entries).hasField field := rfl

theorem contains_record (item : Value) :
    (record made entries).contains item = (map entries).contains item := rfl

/-- Neither is refused as a range, wherever it stands. -/
theorem range_record (span span' : Span) :
    (record made entries).range span = Value.range span' (map entries) := rfl

end Answers

/-- Keys that are each written with their value are written as entries. -/
theorem mapM_keys {α : Type} {w : Document.Writer α}
    {write : Value → Except WriteFault (String × α)} : ∀ {entries : Entries Value},
      (∀ pair ∈ entries, write (.string pair.1) = do return (pair.1, ← pair.2.write w)) →
      ((Entries.keys entries).map Value.string).mapM write = writeEntries w entries
  | [], _ => rfl
  | (key, v) :: rest, h => by
    rw [List.forall_mem_cons] at h
    have hrest := mapM_keys h.2
    simp only [Entries.keys] at hrest
    simp only [Entries.keys, List.map_cons, List.mapM_cons, h.1, hrest, writeEntries]
    cases v.write w <;> rfl

/-- **A record is written as a map**, be it key by key. -/
theorem write_object {α : Type} (w : Document.Writer α) {entries : Entries Value}
    (h : entries.Distinct) (made : Origin) :
    (Face.ofEntries made entries).object.write w = (map entries).write w := by
  have hallowed : (ObjectType.record.traits.iterable && ObjectType.record.traits.indexed) = true :=
    rfl
  rw [Face.object, write, write, Face.ofEntries, if_pos hallowed]
  refine congrArg (· >>= _) (mapM_keys fun pair hpair => ?_)
  simp only [Entries.get?_of_mem h hpair, writeResult]

end Value

/-! ## Expressions -/

/-- What an expression can ask of a container, apart from what it is. -/
inductive Observation
  | select (field : String)
  | index (i : Expr)
  | has (field : String)
  | member (item : Expr)
  /-- `size(c)`, or `c.size()` on the receiver. -/
  | size (onReceiver : Bool)
  | quantify (q : Quantifier) (name : String) (test : Expr)
  | collect (name : String) (test : Option Expr) (image : Expr)

namespace Observation

/-- The expression that asks it of a container. -/
def expr (span : Span) (container : Expr) : Observation → Expr
  | select field => .select span container field
  | index i => .index span container i
  | has field => .has span container field
  | member item => .binary span .mem item container
  | size true => .call span (some container) "size" []
  | size false => .call span none "size" [container]
  | quantify q name test => .quantify span q container name test
  | collect name test image => .collect span container name test image

/-- Which part of that expression the container is. -/
def part : Observation → Nat
  | member _ => 1
  | size false => 2
  | _ => 0

/-- A container is asked for its value, whatever the expression that gives it. -/
theorem eval_record {env : Environment}
    (hsize : env.functions.get? "size" = some (Standard.onAny "size" Standard.size))
    {entries : Entries Value} {made : Origin} (o : Observation) (span : Span) {m r : Expr}
    {origin : Origin} {context : Context}
    (hm : m.eval env (origin.child o.part) context = .ok (.map entries))
    (hr : r.eval env (origin.child o.part) context = .ok (.record made entries)) :
    (o.expr span r).eval env origin context = (o.expr span m).eval env origin context := by
  cases o with
  | select field =>
    simp only [expr, Expr.eval, part] at *
    rw [hm, hr, ok_bind, ok_bind, Value.select_record]
  | index i =>
    simp only [expr, Expr.eval, part] at *
    simp only [hm, hr, ok_bind, Value.index_record]
  | has field =>
    simp only [expr, Expr.eval, part] at *
    rw [hm, hr, ok_bind, ok_bind, Value.hasField_record]
  | member item =>
    simp only [expr, Expr.eval, part] at *
    simp only [BinaryOp.outcome, BinaryOp.decisive?, BinaryOp.apply, hm, hr, ok_bind,
      Value.contains_record]
  | size onReceiver =>
    cases onReceiver <;>
      simp only [expr, Expr.eval, Expr.evalOptional, Expr.evalItems, part] at * <;>
      simp only [hm, hr, ok_bind, pure_eq_ok, Environment.call, hsize] <;>
      rfl
  | quantify q name test =>
    simp only [expr, Expr.eval, part] at *
    simp only [hm, hr, ok_bind, Value.range_record made entries r.span m.span]
  | collect name test image =>
    simp only [expr, Expr.eval, part] at *
    simp only [hm, hr, ok_bind, Value.range_record made entries r.span m.span]

end Observation

/-- **A record and a map with the same entries are indistinguishable** but by what they are: an
expression that asks something of the one has the same outcome if it asks it of the other, and
their JSON is the same. They differ in type, in text and in equality. -/
theorem record_observed_as_map {env : Environment}
    (hsize : env.functions.get? "size" = some (Standard.onAny "size" Standard.size))
    (entries : Entries Value) (hdistinct : entries.Distinct) (made : Origin) :
    (∀ (o : Observation) (span : Span) (m r : Expr) (origin : Origin) (context : Context),
      m.eval env (origin.child o.part) context = .ok (.map entries) →
      r.eval env (origin.child o.part) context = .ok (.record made entries) →
        (o.expr span r).eval env origin context = (o.expr span m).eval env origin context) ∧
    ((Value.record made entries).toJson = (Value.map entries).toJson ∧
      (Face.ofEntries made entries).object.toJson = (Value.map entries).toJson ∧
      (Value.record made entries).toDocument = (Value.map entries).toDocument) ∧
    (Standard.type none [.record made entries] = .ok (.string "OrderedObject") ∧
      Standard.type none [.map entries] = .ok (.string "map")) ∧
    (Standard.string none [.record made entries] = .ok (.string "OrderedObject") ∧
      Standard.string none [.map entries] = .raise (.conversion "map" "string")) ∧
    ∀ v, (Value.record made entries).equal v = true ↔
      ∃ others, v = .record made others := by
  refine ⟨fun o span m r origin context hm hr => o.eval_record hsize span hm hr,
    ⟨rfl, ?_, rfl⟩, ⟨rfl, rfl⟩, ⟨rfl, rfl⟩, fun v => ?_⟩
  · exact Value.write_object .text hdistinct made
  · cases v with
    | record other others => simp [Value.equal, @eq_comm _ made]
    | _ => simp [Value.equal]

/-- The keys of a record that are in a map with the same entries, by `r.filter(k, k in m)`. -/
theorem record_observed_as_map_of_filter :
    let entries : Entries Value := [("b", .ofNat 1), ("a", .null)]
    let context : Context := fun name =>
      if name = "m" then some (.map entries) else some (.record ⟨[7]⟩ entries)
    let test : Expr := .binary ⟨12, 18⟩ .mem (.ident ⟨12, 13⟩ "k") (.ident ⟨17, 18⟩ "m")
    ((Expr.quantify ⟨0, 19⟩ .filter (.ident ⟨0, 1⟩ "r") "k" test).eval .standard ⟨[]⟩ context =
      (Expr.quantify ⟨0, 19⟩ .filter (.ident ⟨0, 1⟩ "m") "k" test).eval .standard ⟨[]⟩ context) ∧
      (Value.record ⟨[7]⟩ entries).toJson = (Value.map entries).toJson := by
  intro entries context test
  obtain ⟨hobserved, ⟨hjson, -⟩, -⟩ :=
    @record_observed_as_map .standard (by rfl) entries (by decide) ⟨[7]⟩
  exact ⟨hobserved (.quantify .filter "k" test) _ _ _ _ _ rfl rfl, hjson⟩

end JsonTemplate
