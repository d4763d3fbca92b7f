/-
Objects of a host, by their types and by how they fail. What is known of every such object in a
value (`Value.Hosting`) is known of every value that operations make of it (`hosting_closed`), since
the engine makes no objects but records. A document has none.
-/
import JsonTemplate.Proofs.Invariant
import JsonTemplate.Value.Json

namespace JsonTemplate

namespace Value

section Hosting

variable (T : ObjectType → Prop) (F : Failure → Prop)

mutual

/-- The objects of a host in the value have types of `T`, and a key that they do not give stands
for a failure of `F`. -/
def Hosting : Value → Prop
  | .list items => HostingItems items
  | .map entries => HostingEntries entries
  | .record _ entries => HostingEntries entries
  | .host _ type get _ keys _ => T type ∧ (∀ key, HostingAnswer (get key)) ∧ HostingItems keys
  | _ => True

def HostingAnswer : Except Failure Value → Prop
  | .ok v => v.Hosting
  | .error f => F f

def HostingItems : List Value → Prop
  | [] => True
  | v :: rest => v.Hosting ∧ HostingItems rest

def HostingEntries : List (String × Value) → Prop
  | [] => True
  | (_, v) :: rest => v.Hosting ∧ HostingEntries rest

end

end Hosting

variable {T : ObjectType → Prop} {F : Failure → Prop}

theorem hostingItems_iff {items : List Value} :
    HostingItems T F items ↔ ∀ v ∈ items, v.Hosting T F := by
  induction items with
  | nil => simp [HostingItems]
  | cons v rest ih => rw [HostingItems, ih, List.forall_mem_cons]

theorem hostingEntries_iff {entries : List (String × Value)} :
    HostingEntries T F entries ↔ ∀ pair ∈ entries, pair.2.Hosting T F := by
  induction entries with
  | nil => simp [HostingEntries]
  | cons pair rest ih => rw [HostingEntries, ih, List.forall_mem_cons]

theorem Hosting.get {v : Value} (hv : v.Hosting T F) {face : Face} (hface : v.face? = some face)
    (key : String) :
    Satisfies (Hosting T F) (fun f => F f ∨ f = .of (.noSuchKey key)) (face.get key) := by
  cases v with
  | record origin entries =>
    cases hface
    exact Face.get_ofEntries (hostingEntries_iff.mp hv) (.inr rfl) origin
  | host origin type get contains keys size =>
    cases hface
    have hkey := hv.2.1 key
    dsimp only
    cases hget : get key with
    | ok a => rw [hget] at hkey; exact hkey
    | error f => rw [hget] at hkey; exact .inl hkey
  | _ => cases hface

theorem Hosting.keys {v : Value} (hv : v.Hosting T F) {face : Face} (hface : v.face? = some face) :
    ∀ k ∈ face.keys, k.Hosting T F := by
  cases v with
  | record origin entries =>
    cases hface
    intro k hk
    obtain ⟨key, -, rfl⟩ := List.mem_map.mp hk
    trivial
  | host origin type get contains keys size =>
    cases hface
    exact hostingItems_iff.mp hv.2.2
  | _ => cases hface

/-- **What is known of the objects of a host goes through every operation on values**, given what
is known of failures. -/
theorem hosting_closed {Q : Interrupt → Prop} (hhost : ∀ f, F f → Q (.failed f))
    (hraised : ∀ cause beneath, cause.Raised (Hosting T F) → Q (.failed ⟨cause, none, beneath⟩)) :
    Closed (Hosting T F) Q where
  literal l := by cases l <;> trivial
  list _ := hostingItems_iff
  ofMap _ h := hostingEntries_iff.mpr fun pair hmem => h pair (Entries.mem_of_mem_ofPairs hmem)
  record _ _ h := hostingEntries_iff.mpr fun pair hmem => h pair (Entries.mem_of_mem_ofPairs hmem)
  entry _ _ _ h hget := hostingEntries_iff.mp h _ (Entries.mem_of_get? hget)
  get v face key hv hface := by
    have h := hv.get hface key
    cases hget : face.get key with
    | ok a => rw [hget] at h; exact h
    | error f =>
      rw [hget] at h
      rcases h with h | rfl
      · exact hhost f h
      · exact hraised _ _ (.noSuchKey key)
  keys _ _ hv hface := hv.keys hface
  failed := hraised

mutual

/-- A document has no objects. -/
theorem ofDocument_hosting : ∀ d : Document, (ofDocument d).Hosting T F
  | .null | .bool _ | .number _ | .string _ => trivial
  | .array items => ofDocuments_hosting items
  | .object entries => ofDocumentEntries_hosting entries

theorem ofDocuments_hosting : ∀ ds : List Document, HostingItems T F (ofDocuments ds)
  | [] => trivial
  | d :: rest => ⟨ofDocument_hosting d, ofDocuments_hosting rest⟩

theorem ofDocumentEntries_hosting : ∀ ds : List (String × Document),
    HostingEntries T F (ofDocumentEntries ds)
  | [] => trivial
  | (_, d) :: rest => ⟨ofDocument_hosting d, ofDocumentEntries_hosting rest⟩

end

end Value

end JsonTemplate
