/-
Places in a document and JSON pointers. A place is reached by steps, keys of objects and numbers in
arrays; its pointer writes each step behind a slash, with `~` and `/` escaped in keys. A pointer is
resolved by the rules of pointers alone, knowing nothing of how it was written, and leads back to
the place (`resolve?_pointer`), whatever the keys on the way are. The strings of a document are
listed in order with their places (`places`).
-/
import JsonTemplate.Template.Tree

namespace JsonTemplate

namespace Document

/-- A step from a container to one of its parts. -/
inductive Step
  | key (name : String)
  | item (number : Nat)
  deriving DecidableEq, Repr

def part? : Document → Step → Option Document
  | object entries, .key name => Entries.get? entries name
  | array items, .item i => items[i]?
  | _, _ => none

/-- The document at a place. -/
def at? (d : Document) : List Step → Option Document
  | [] => some d
  | step :: rest => (d.part? step).bind (at? · rest)

/-! ## Pointers -/

namespace Pointer

/-- Undoes the escapes of a key: `~0` is `~` and `~1` is `/`. No other `~` may stand. -/
def unescape? : List Char → Option (List Char)
  | [] => some []
  | '~' :: '0' :: rest => (unescape? rest).map ('~' :: ·)
  | '~' :: '1' :: rest => (unescape? rest).map ('/' :: ·)
  | c :: rest => if c = '~' then none else (unescape? rest).map (c :: ·)

/-- A number in an array is written in decimal, without leading zeros. -/
def number? (token : List Char) : Option Nat :=
  let n := Nat.ofDigitChars 10 token 0
  if (toString n).toList = token then some n else none

/-- The part of a document that a token of a pointer refers to. -/
def referred? (d : Document) (token : List Char) : Option Document :=
  match d with
  | object entries => do Entries.get? entries (String.ofList (← unescape? token))
  | array items => do items[← number? token]?
  | _ => none

end Pointer

open Pointer

/-- The document that a JSON pointer refers to: the whole one if the pointer is empty, else what
the tokens lead to, each of which stands behind a slash. -/
def resolve? (d : Document) (pointer : String) : Option Document :=
  match pointer.toList with
  | [] => some d
  | c :: tokens => if c = '/' then (tokens.splitOn '/').foldlM referred? d else none

/-- A step as a token of a pointer. -/
def Step.token : Step → String
  | key name => Tree.escapeStep name
  | item i => toString i

/-- The JSON pointer to a place. -/
def pointer : List Step → String
  | [] => ""
  | step :: rest => "/" ++ step.token ++ pointer rest

namespace Pointer

theorem unescape?_plain {c : Char} (hc : c ≠ '~') (rest : List Char) :
    unescape? (c :: rest) = (unescape? rest).map (c :: ·) := by
  rw [unescape?, if_neg hc]
  · rintro rest' rfl
    exact absurd rfl hc
  · rintro rest' rfl
    exact absurd rfl hc

/-- Escaping is undone, whatever the characters. -/
theorem unescape?_escaped (cs : List Char) :
    unescape? (cs.flatMap fun c =>
      if c = '~' then ['~', '0'] else if c = '/' then ['~', '1'] else [c]) = some cs := by
  induction cs with
  | nil => rfl
  | cons c cs ih =>
    rw [List.flatMap_cons]
    by_cases htilde : c = '~'
    · subst htilde
      simp [unescape?, ih]
    by_cases hslash : c = '/'
    · subst hslash
      simp [unescape?, ih]
    · simp only [htilde, hslash, if_false, List.cons_append, List.nil_append]
      rw [unescape?_plain htilde, ih, Option.map_some]

theorem number?_toString (n : Nat) : number? (toString n).toList = some n := by
  have hread : Nat.ofDigitChars 10 (toString n).toList 0 = n := by
    simp [Nat.ofDigitChars_toDigits]
  simp only [number?, hread, if_true]

/-- A token ends where the next slash stands. -/
theorem slash_not_mem_token (step : Step) : '/' ∉ step.token.toList := by
  cases step with
  | key name =>
    simp only [Step.token, Tree.escapeStep, String.toList_ofList, List.mem_flatMap, not_exists,
      not_and]
    intro c _ hmem
    by_cases htilde : c = '~'
    · simp [htilde] at hmem
    by_cases hslash : c = '/'
    · simp [hslash] at hmem
    · simp only [htilde, hslash, if_false, List.mem_singleton] at hmem
      exact hslash hmem.symm
  | item i =>
    intro hmem
    have hmem' : '/' ∈ Nat.toDigits 10 i := by simpa [Step.token] using hmem
    have hdigit : '/'.isDigit = true := Nat.isDigit_of_mem_toDigits (by omega) (by omega) hmem'
    exact absurd hdigit (by decide)

/-- A token refers to what its step leads to. -/
theorem referred?_token {d part : Document} {step : Step} (h : d.part? step = some part) :
    referred? d step.token.toList = some part := by
  cases step with
  | key name =>
    cases d with
    | object entries =>
      have hname : unescape? (Tree.escapeStep name).toList = some name.toList := by
        rw [Tree.escapeStep, String.toList_ofList, unescape?_escaped]
      simpa [referred?, Step.token, hname, part?] using h
    | _ => cases h
  | item i =>
    cases d with
    | array items =>
      have hnumber : number? (Step.item i).token.toList = some i := number?_toString i
      simpa [referred?, hnumber, part?] using h
    | _ => cases h

theorem referred?_tokens {d part : Document} {steps : List Step} (h : d.at? steps = some part) :
    (steps.map fun step => step.token.toList).foldlM referred? d = some part := by
  induction steps generalizing d with
  | nil => exact h
  | cons step rest ih =>
    obtain ⟨next, hstep, hrest⟩ := Option.bind_eq_some_iff.mp h
    rw [List.map_cons, List.foldlM_cons, referred?_token hstep]
    exact ih hrest

end Pointer

/-- The tokens of a pointer, behind its first slash. -/
theorem toList_pointer (step : Step) (rest : List Step) :
    (pointer (step :: rest)).toList =
      '/' :: ['/'].intercalate ((step :: rest).map fun step => step.token.toList) := by
  induction rest generalizing step with
  | nil => simp [pointer]
  | cons next rest ih =>
    have hnext := ih next
    rw [pointer, String.toList_append, hnext]
    simp [List.intercalate]

/-- **The pointer to a place resolves to what is there.** -/
theorem resolve?_pointer {d part : Document} {steps : List Step} (h : d.at? steps = some part) :
    d.resolve? (pointer steps) = some part := by
  cases steps with
  | nil => exact h
  | cons step rest =>
    have htokens : ∀ token ∈ (step :: rest).map fun s => s.token.toList, '/' ∉ token :=
      List.forall_mem_map.mpr fun s _ => slash_not_mem_token s
    have hsplit := List.splitOn_intercalate '/' htokens (by simp)
    rw [resolve?, toList_pointer]
    simp only [if_true, hsplit]
    exact referred?_tokens h

/-! ## The strings of a document -/

mutual

/-- The strings of a document in order, keys apart, each with its place. -/
def places : Document → List (List Step × String)
  | string s => [([], s)]
  | array items => placesOfItems 0 items
  | object entries => placesOfEntries entries
  | _ => []

def placesOfItems (i : Nat) : List Document → List (List Step × String)
  | [] => []
  | d :: rest =>
    d.places.map (fun place => (.item i :: place.1, place.2)) ++
      placesOfItems (i + 1) rest

def placesOfEntries : List (String × Document) → List (List Step × String)
  | [] => []
  | (key, d) :: rest =>
    d.places.map (fun place => (.key key :: place.1, place.2)) ++ placesOfEntries rest

end

mutual

/-- No object in a document lists a key twice. -/
def Distinct : Document → Prop
  | array items => DistinctItems items
  | object entries => Entries.Distinct entries ∧ DistinctEntries entries
  | _ => True

def DistinctItems : List Document → Prop
  | [] => True
  | d :: rest => d.Distinct ∧ DistinctItems rest

def DistinctEntries : List (String × Document) → Prop
  | [] => True
  | (_, d) :: rest => d.Distinct ∧ DistinctEntries rest

end

theorem distinctItems_iff {items : List Document} :
    DistinctItems items ↔ ∀ d ∈ items, d.Distinct := by
  induction items with
  | nil => simp [DistinctItems]
  | cons d rest ih => simp only [DistinctItems, ih, List.forall_mem_cons]

theorem distinctEntries_iff {entries : List (String × Document)} :
    DistinctEntries entries ↔ ∀ entry ∈ entries, entry.2.Distinct := by
  induction entries with
  | nil => simp [DistinctEntries]
  | cons entry rest ih => simp only [DistinctEntries, ih, List.forall_mem_cons]

theorem mem_placesOfItems {items : List Document} {first : Nat} {place : List Step × String} :
    place ∈ placesOfItems first items ↔ ∃ i d, items[i]? = some d ∧
      ∃ inner ∈ d.places, (.item (first + i) :: inner.1, inner.2) = place := by
  induction items generalizing first with
  | nil => simp [placesOfItems]
  | cons d rest ih =>
    rw [placesOfItems, List.mem_append, List.mem_map, ih]
    constructor
    · rintro (h | ⟨i, d', hget, h⟩)
      · exact ⟨0, d, rfl, h⟩
      · refine ⟨i + 1, d', hget, ?_⟩
        rwa [← Nat.add_assoc, Nat.add_right_comm]
    · rintro ⟨i, d', hget, h⟩
      cases i with
      | zero =>
        cases hget
        exact .inl h
      | succ i =>
        refine .inr ⟨i, d', hget, ?_⟩
        rwa [Nat.add_right_comm, Nat.add_assoc]

theorem mem_placesOfEntries {entries : List (String × Document)} {place : List Step × String} :
    place ∈ placesOfEntries entries ↔ ∃ key d, (key, d) ∈ entries ∧
      ∃ inner ∈ d.places, (.key key :: inner.1, inner.2) = place := by
  induction entries with
  | nil => simp [placesOfEntries]
  | cons entry rest ih =>
    obtain ⟨key, d⟩ := entry
    rw [placesOfEntries, List.mem_append, List.mem_map, ih]
    constructor
    · rintro (h | ⟨key', d', hmem, h⟩)
      · exact ⟨key, d, List.mem_cons_self, h⟩
      · exact ⟨key', d', List.mem_cons_of_mem _ hmem, h⟩
    · rintro ⟨key', d', hmem, h⟩
      rcases List.mem_cons.mp hmem with heq | hmem
      · cases heq
        exact .inl h
      · exact .inr ⟨key', d', hmem, h⟩

/-- The listed strings are the strings that stand anywhere in the document. -/
theorem mem_places {steps : List Step} {s : String} : ∀ {d : Document}, d.Distinct →
    ((steps, s) ∈ d.places ↔ d.at? steps = some (string s)) := by
  induction steps with
  | nil =>
    intro d _
    cases d with
    | string text => simp [places, at?, eq_comm]
    | array items => simp [places, at?, mem_placesOfItems]
    | object entries => simp [places, at?, mem_placesOfEntries]
    | _ => simp [places, at?]
  | cons step rest ih =>
    intro d hd
    cases d with
    | array items =>
      have hitems := distinctItems_iff.mp hd
      have hinner {i : Nat} {d : Document} (hget : items[i]? = some d) :
          (rest, s) ∈ d.places ↔ d.at? rest = some (string s) :=
        ih (hitems d (List.mem_of_getElem? hget))
      cases step with
      | key name => simp [places, at?, part?, mem_placesOfItems]
      | item i =>
        simp only [places, mem_placesOfItems, at?, part?, Option.bind_eq_some_iff, Nat.zero_add]
        constructor
        · rintro ⟨j, d, hget, inner, hmem, heq⟩
          cases heq
          exact ⟨d, hget, (hinner hget).mp hmem⟩
        · rintro ⟨d, hget, hat⟩
          exact ⟨i, d, hget, (rest, s), (hinner hget).mpr hat, rfl⟩
    | object entries =>
      have hentries := distinctEntries_iff.mp hd.2
      have hinner {key : String} {d : Document} (hmem : (key, d) ∈ entries) :
          (rest, s) ∈ d.places ↔ d.at? rest = some (string s) := ih (hentries (key, d) hmem)
      cases step with
      | item i => simp [places, at?, part?, mem_placesOfEntries]
      | key name =>
        simp only [places, mem_placesOfEntries, at?, part?, Option.bind_eq_some_iff]
        constructor
        · rintro ⟨key, d, hmem, inner, hplace, heq⟩
          cases heq
          exact ⟨d, Entries.get?_of_mem hd.1 hmem, (hinner hmem).mp hplace⟩
        · rintro ⟨d, hget, hat⟩
          have hmem := Entries.mem_of_get? hget
          exact ⟨name, d, hmem, (rest, s), (hinner hmem).mpr hat, rfl⟩
    | _ => simp [places, at?, part?]

end Document

end JsonTemplate
