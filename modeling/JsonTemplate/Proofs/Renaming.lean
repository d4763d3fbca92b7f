/-
Two runs of one expression, at different places and on alike values. The objects that the one run
makes correspond to those that the other makes at the same places below its own (`Places`). If the
functions that are called respect this, the runs give alike values or are interrupted by the same
(`eval_like`).
-/
import JsonTemplate.Proofs.Parametricity

namespace JsonTemplate

open Value (Like Faithful)

/-- The place that is reached from another by the given steps, the last of them first. -/
def Origin.below (o : Origin) (path : List Nat) : Origin := ⟨path ++ o.path⟩

theorem Origin.below_child (o : Origin) (part : Nat) (path : List Nat) :
    (o.child part).below path = o.below (path ++ [part]) := by
  simp [below, child]

/-- What is made at `a` or below stands for what is made at the same place from `b`. -/
def Places (R : Origin → Origin → Prop) (a b : Origin) : Prop :=
  ∀ path, R (a.below path) (b.below path)

section

variable {R : Origin → Origin → Prop}

theorem Places.self {a b : Origin} (h : Places R a b) : R a b := h []

theorem Places.child {a b : Origin} (h : Places R a b) (part : Nat) :
    Places R (a.child part) (b.child part) := by
  intro path
  rw [Origin.below_child, Origin.below_child]
  exact h (path ++ [part])

end

/-- At corresponding places and on alike values the outcomes agree. -/
def Function.Respects (R : Origin → Origin → Prop) (f : Function) : Prop :=
  ∀ a b receiver receiver' args args', Places R a b → Option.Rel (Like R) receiver receiver' →
    List.Forall₂ (Like R) args args' →
      Agree (Like R) (f.call a receiver args) (f.call b receiver' args')

/-- Two contexts with alike values under the given names, where the functions of the given names
respect what stands for what. -/
structure Corresponds (R : Origin → Origin → Prop) (env : Environment) (context context' : Context)
    (calls free : List String) : Prop where
  faithful : Faithful R
  respects : ∀ name ∈ calls, ∀ f, env.functions.get? name = some f → f.Respects R
  name : ∀ x ∈ free, Option.Rel (Like R) (context x) (context' x)

section Corresponds

variable {R : Origin → Origin → Prop} {env : Environment} {context context' : Context}

/-- Alike values answer alike whatever they are asked. -/
theorem Value.Like.congruence : Congruence R (fun _ => False) (Like R) where
  form v v' := by
    constructor
    · intro h
      cases h with
      | null => exact .null
      | bool b => exact .bool b
      | number n => exact .number n
      | string s => exact .string s
      | list hitems => exact .list hitems
      | map hentries => exact .map hentries
      | record hab hentries => exact .record hab hentries
      | host hab hget hkeys =>
        exact .host hab ⟨rfl, fun _ => hget, fun _ => rfl, fun _ => hkeys, fun _ => rfl⟩
    · intro h
      cases h with
      | null => exact .null
      | bool b => exact .bool b
      | number n => exact .number n
      | string s => exact .string s
      | list hitems => exact .list hitems
      | map hentries => exact .map hentries
      | record hab hentries => exact .record hab hentries
      | host hab hface =>
        obtain ⟨-, hget, hcontains, hkeys, hsize⟩ := hface
        obtain rfl := hcontains False.elim
        obtain rfl := hsize False.elim
        exact .host hab (hget False.elim) (hkeys False.elim)

theorem Value.Like.toJson {v v' : Value} (h : Like R v v') : v.toJson = v'.toJson :=
  Like.congruence.write .text (fun _ => id) h

/-- A record is written entry by entry, wherever it was made. -/
theorem Value.toJson_record {entries entries' : List (String × Value)}
    (h : Entries.Related (Like R) entries entries') (a b : Origin) :
    (record a entries).toJson = (record b entries').toJson := by
  rw [toJson, toJson, write, write, Like.congruence.writeEntries .text (fun _ => id) h, h.length]

mutual

/-- A document has no objects. -/
theorem Value.Like.ofDocument : ∀ d : Document, Like R (Value.ofDocument d) (Value.ofDocument d)
  | .null => .null
  | .bool b => .bool b
  | .number n => .number n.toBinary64
  | .string s => .string s
  | .array items => .list (Value.Like.ofDocuments items)
  | .object entries => .map (Value.Like.ofDocumentEntries entries)

theorem Value.Like.ofDocuments : ∀ ds : List Document,
    List.Forall₂ (Like R) (Value.ofDocuments ds) (Value.ofDocuments ds)
  | [] => .nil
  | d :: rest => .cons (Value.Like.ofDocument d) (Value.Like.ofDocuments rest)

theorem Value.Like.ofDocumentEntries : ∀ ds : List (String × Document),
    Entries.Related (Like R) (Value.ofDocumentEntries ds) (Value.ofDocumentEntries ds)
  | [] => .nil
  | (key, d) :: rest =>
    .cons key (Value.Like.ofDocument d) (Value.Like.ofDocumentEntries rest)

end

theorem Value.Faithful.simulation (hR : Faithful R) :
    Simulation R (fun _ => False) (Like R) (Places R) where
  toCongruence := Like.congruence
  faithful := hR
  child := Places.child

theorem Corresponds.parallel {calls free : List String}
    (h : Corresponds R env context context' calls free) :
    Parallel (Like R) (Places R) env context context' calls free := ⟨h.respects, h.name⟩

namespace Expr

/-- **Evaluations that correspond agree**: they give alike values, or are interrupted by the
same. -/
theorem eval_like (e : Expr) {a b : Origin} (hab : Places R a b)
    (h : Corresponds R env context context' e.calls e.free) :
    Agree (Like R) (e.eval env a context) (e.eval env b context') :=
  h.faithful.simulation.eval e hab h.parallel

/-- The places of the parts need not be numbered alike. -/
theorem evalItems_like (items : List Expr) {a b : Origin} {part part' : Nat}
    (hab : ∀ n, Places R (a.child (part + n)) (b.child (part' + n)))
    (h : Corresponds R env context context' (callsOfItems items) (freeItems items)) :
    Agree (List.Forall₂ (Like R)) (evalItems env items a part context)
      (evalItems env items b part' context') :=
  h.faithful.simulation.evalItems items hab h.parallel

end Expr

end Corresponds

end JsonTemplate
