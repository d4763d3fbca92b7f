/-
Operations that the type of an object does not advertise. Two values are the same but for an object
if they differ only in what that object would answer where its type does not allow that it is asked
(`Value.SameBut`). An expression over the standard functions never finds out
(`eval_ignores_unadvertised`).
-/
import JsonTemplate.Program
import JsonTemplate.Proofs.Options
import JsonTemplate.Proofs.Parametricity

namespace JsonTemplate

/-- Values that are the same, but for one object: it answers alike what its type allows to be
asked, and everything else as it pleases. -/
inductive Value.SameBut (object : Origin) : Value → Value → Prop
  | null : SameBut object .null .null
  | bool (b) : SameBut object (.bool b) (.bool b)
  | number (n) : SameBut object (.number n) (.number n)
  | string (s) : SameBut object (.string s) (.string s)
  | list {items items'} : List.Forall₂ (SameBut object) items items' →
    SameBut object (.list items) (.list items')
  | map {entries entries'} : Entries.Related (SameBut object) entries entries' →
    SameBut object (.map entries) (.map entries')
  | record {origin entries entries'} : Entries.Related (SameBut object) entries entries' →
    SameBut object (.record origin entries) (.record origin entries')
  | host {origin type get get' contains contains' keys keys' size size'} :
    ((origin = object → type.traits.indexed = true) →
      ∀ key, Agree (SameBut object) (get key) (get' key)) →
    ((origin = object → type.traits.container = true) → contains = contains') →
    ((origin = object → type.traits.iterable = true) →
      List.Forall₂ (SameBut object) keys keys') →
    ((origin = object → type.traits.sized = true) → size = size') →
    SameBut object (.host origin type get contains keys size)
      (.host origin type get' contains' keys' size')

namespace Value.SameBut

variable {object : Origin}

theorem congruence : Congruence Eq (· = object) (SameBut object) where
  form v v' := by
    constructor
    · intro h
      cases h with
      | null => exact .null
      | bool b => exact .bool b
      | number n => exact .number n
      | string s => exact .string s
      | list hitems => exact .list hitems
      | map hentries => exact .map hentries
      | record hentries => exact .record rfl hentries
      | host hget hcontains hkeys hsize => exact .host rfl ⟨rfl, hget, hcontains, hkeys, hsize⟩
    · intro h
      cases h with
      | null => exact .null
      | bool b => exact .bool b
      | number n => exact .number n
      | string s => exact .string s
      | list hitems => exact .list hitems
      | map hentries => exact .map hentries
      | record hab hentries => exact hab ▸ .record hentries
      | host hab hface => exact hab ▸ .host hface.get hface.contains hface.keys hface.size

theorem simulation : Simulation Eq (· = object) (SameBut object) Eq where
  toCongruence := congruence
  faithful _ _ _ _ hab hcd := by rw [hab, hcd]
  child hab part := congrArg (Origin.child · part) hab

end Value.SameBut

/-- **What the type of an object does not advertise never influences an evaluation** over the
standard functions: it gives values that are the same but for this object, or fails in the same
way. -/
theorem eval_ignores_unadvertised (object : Origin) (p : Program)
    (hfunctions : ∀ name f, p.environment.functions.get? name = some f → f ∈ Standard.functions)
    (origin : Origin) {context context' : Context}
    (h : ∀ name, Option.Rel (Value.SameBut object) (context name) (context' name)) :
    Agree (Value.SameBut object) (p.eval origin context) (p.eval origin context') :=
  Value.SameBut.simulation.eval p.expr rfl
    ⟨fun name _ f hf => Standard.functions_preserve Value.SameBut.congruence Eq f
      (hfunctions name f hf), fun name _ => h name⟩

/-- An object in a list that only lets its entries be read, whatever else it would answer. -/
theorem eval_ignores_unadvertised_of_indexed :
    let object (present : Bool) (keys : List Value) (size : Nat) : Value :=
      .host ⟨[7]⟩ ⟨"Lookup", ⟨true, false, false, false⟩⟩ (fun _ => .ok (.ofNat 1))
        (fun _ => present) keys size
    let item (start : Nat) : Expr := .index ⟨start, start + 4⟩ (.ident ⟨start, start + 1⟩ "o")
      (.literal ⟨start + 2, start + 3⟩ (.number (.ofNat 0)))
    let p : Program := ⟨.binary ⟨0, 26⟩ .or (.has ⟨0, 11⟩ (item 4) "x")
      (.binary ⟨15, 26⟩ .eq (.select ⟨15, 21⟩ (item 15) "x")
        (.literal ⟨25, 26⟩ (.number (.ofNat 1)))), "has(o[0].x) || o[0].x == 1", .standard⟩
    let context (o : Value) : Context := fun name => if name = "o" then some (.list [o]) else none
    (∀ name, Option.Rel (Value.SameBut ⟨[7]⟩) (context (object true [] 0) name)
      (context (object false [.null] 3) name)) ∧
      Agree (Value.SameBut ⟨[7]⟩) (p.eval default (context (object true [] 0)))
        (p.eval default (context (object false [.null] 3))) := by
  intro object item p context
  have hsame : Value.SameBut ⟨[7]⟩ (object true [] 0) (object false [.null] 3) :=
    .host (fun _ _ => .ok (.number _)) (fun h => nomatch h rfl) (fun h => nomatch h rfl)
      fun h => nomatch h rfl
  have hcontext : ∀ name, Option.Rel (Value.SameBut ⟨[7]⟩) (context (object true [] 0) name)
      (context (object false [.null] 3) name) := by
    intro name
    by_cases hname : name = "o"
    · simpa only [context, if_pos hname] using .some (.list (.cons hsame .nil))
    · simpa only [context, if_neg hname] using .none
  refine ⟨hcontext, eval_ignores_unadvertised ⟨[7]⟩ p (fun name f hf => ?_) default hcontext⟩
  exact (Environment.mem_of_standard (Entries.mem_of_get? hf)).1

end JsonTemplate
