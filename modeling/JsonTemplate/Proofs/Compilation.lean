/-
Compiled trees. The expressions of a tree stand in document order, each at the place where it is
evaluated (`leaves`). Those of a compiled tree are strings of the document, compiled
(`compile_leaves`), and no object of it lists a key twice, whatever the document does
(`compile_distinct`). An environment that compiles the same strings to the same expressions gives
the same tree (`ofDocument_within`).
-/
import JsonTemplate.Template.Tree
import JsonTemplate.Proofs.Outcome

namespace JsonTemplate

namespace Tree

/-! ## Leaves -/

/-- An expression of a tree, at the place where it is evaluated. -/
structure Leaf where
  origin : Origin
  program : Program

def Leaf.outcome (leaf : Leaf) (context : Context) : Outcome Value :=
  leaf.program.eval leaf.origin context

mutual

/-- The expressions of a tree in document order. -/
def leaves (t : Tree) (origin : Origin) : List Leaf :=
  match t with
  | literal _ => []
  | expression program => [⟨origin, program⟩]
  | object entries => leavesOfEntries entries origin 0
  | list items => leavesOfItems items origin 0

def leavesOfEntries (entries : List (String × Tree)) (origin : Origin) (part : Nat) :
    List Leaf :=
  match entries with
  | [] => []
  | (_, t) :: rest => t.leaves (origin.child part) ++ leavesOfEntries rest origin (part + 1)

def leavesOfItems (items : List Tree) (origin : Origin) (part : Nat) : List Leaf :=
  match items with
  | [] => []
  | t :: rest => t.leaves (origin.child part) ++ leavesOfItems rest origin (part + 1)

end

mutual

/-- The expressions of a tree are the same at every place. -/
theorem programs_leaves : ∀ (t : Tree) (a b : Origin),
    (t.leaves a).map Leaf.program = (t.leaves b).map Leaf.program
  | literal _, _, _ => rfl
  | expression _, _, _ => rfl
  | object entries, a, b => programs_leavesOfEntries entries a b 0
  | list items, a, b => programs_leavesOfItems items a b 0

theorem programs_leavesOfEntries : ∀ (entries : List (String × Tree)) (a b : Origin) (part : Nat),
    (leavesOfEntries entries a part).map Leaf.program =
      (leavesOfEntries entries b part).map Leaf.program
  | [], _, _, _ => rfl
  | (_, t) :: rest, a, b, part => by
    rw [leavesOfEntries, leavesOfEntries, List.map_append, List.map_append,
      programs_leaves t (a.child part) (b.child part), programs_leavesOfEntries rest a b (part + 1)]

theorem programs_leavesOfItems : ∀ (items : List Tree) (a b : Origin) (part : Nat),
    (leavesOfItems items a part).map Leaf.program = (leavesOfItems items b part).map Leaf.program
  | [], _, _, _ => rfl
  | t :: rest, a, b, part => by
    rw [leavesOfItems, leavesOfItems, List.map_append, List.map_append,
      programs_leaves t (a.child part) (b.child part), programs_leavesOfItems rest a b (part + 1)]

end

theorem mem_leaves_of_mem {t : Tree} {a : Origin} {leaf : Leaf} (h : leaf ∈ t.leaves a)
    (b : Origin) : ∃ other ∈ t.leaves b, other.program = leaf.program := by
  have hmem := List.mem_map_of_mem (f := Leaf.program) h
  rw [programs_leaves t a b] at hmem
  exact List.mem_map.mp hmem

/-! ## Distinct keys -/

mutual

/-- No object of the tree lists a key twice. -/
def Distinct : Tree → Prop
  | literal _ => True
  | expression _ => True
  | object entries => Entries.Distinct entries ∧ DistinctEntries entries
  | list items => DistinctItems items

def DistinctEntries : List (String × Tree) → Prop
  | [] => True
  | (_, t) :: rest => t.Distinct ∧ DistinctEntries rest

def DistinctItems : List Tree → Prop
  | [] => True
  | t :: rest => t.Distinct ∧ DistinctItems rest

end

theorem distinctEntries_iff {entries : List (String × Tree)} :
    DistinctEntries entries ↔ ∀ entry ∈ entries, entry.2.Distinct := by
  induction entries with
  | nil => simp [DistinctEntries]
  | cons entry rest ih => simp only [DistinctEntries, ih, List.forall_mem_cons]

mutual

theorem ofDocument_distinct {env : Environment} : ∀ {path : String} {d : Document} {t : Tree},
    ofDocument env path d = .ok t → t.Distinct
  | _, .null, _, h => by simp only [ofDocument] at h; cases h; trivial
  | _, .bool _, _, h => by simp only [ofDocument] at h; cases h; trivial
  | _, .number _, _, h => by simp only [ofDocument] at h; cases h; trivial
  | _, .string _, _, h => by
    simp only [ofDocument] at h
    split at h <;> cases h
    trivial
  | _, .array _, _, h => by
    simp only [ofDocument, bind_eq_ok] at h
    obtain ⟨items, hitems, h⟩ := h
    cases h
    exact ofItems_distinct hitems
  | _, .object _, _, h => by
    simp only [ofDocument, bind_eq_ok] at h
    obtain ⟨entries, hentries, h⟩ := h
    cases h
    have hdistinct := distinctEntries_iff.mp (ofEntries_distinct hentries)
    exact ⟨Entries.distinct_ofPairs _,
      distinctEntries_iff.mpr fun entry hmem => hdistinct entry (Entries.mem_of_mem_ofPairs hmem)⟩

theorem ofItems_distinct {env : Environment} :
    ∀ {path : String} {number : Nat} {ds : List Document} {items : List Tree},
      ofItems env path number ds = .ok items → DistinctItems items
  | _, _, [], _, h => by simp only [ofItems] at h; cases h; trivial
  | _, _, _ :: _, _, h => by
    simp only [ofItems, bind_eq_ok] at h
    obtain ⟨first, hfirst, rest, hrest, h⟩ := h
    cases h
    exact ⟨ofDocument_distinct hfirst, ofItems_distinct hrest⟩

theorem ofEntries_distinct {env : Environment} :
    ∀ {path : String} {ds : List (String × Document)} {entries : List (String × Tree)},
      ofEntries env path ds = .ok entries → DistinctEntries entries
  | _, [], _, h => by simp only [ofEntries] at h; cases h; trivial
  | _, (_, _) :: _, _, h => by
    simp only [ofEntries, bind_eq_ok] at h
    obtain ⟨first, hfirst, rest, hrest, h⟩ := h
    cases h
    exact ⟨ofDocument_distinct hfirst, ofEntries_distinct hrest⟩

end

theorem ofEntries_keys {env : Environment} {path : String} {ds : List (String × Document)}
    {entries : List (String × Tree)} (h : ofEntries env path ds = .ok entries) :
    Entries.keys entries = Entries.keys ds := by
  induction ds generalizing entries with
  | nil =>
    simp only [ofEntries] at h
    cases h
    rfl
  | cons pair rest ih =>
    simp only [ofEntries, bind_eq_ok] at h
    obtain ⟨_, -, _, hrest, h⟩ := h
    cases h
    exact congrArg (pair.1 :: ·) (ih hrest)

end Tree

/-! ## Compiled expressions -/

/-- A compiled program is a parsed expression without faults, its names of types resolved. -/
theorem Environment.compile_eq_ok {env : Environment} {source : String} {p : Program} :
    env.compile source = .ok p ↔
      ∃ e, Expr.parse source = .ok e ∧ (e.resolveTypes env []).faults env [] = [] ∧
        p = ⟨e.resolveTypes env [], source, env⟩ := by
  unfold compile
  constructor
  · intro h
    split at h
    · cases h
    · rename_i e hparse
      dsimp only at h
      split at h
      · rename_i hfaults
        cases h
        exact ⟨e, hparse, hfaults, rfl⟩
      · cases h
  · rintro ⟨e, hparse, hfaults, rfl⟩
    simp only [hparse, hfaults]

mutual

/-- The strings of a document in order, keys apart. -/
def Document.strings : Document → List String
  | .string s => [s]
  | .array items => Document.stringsOfItems items
  | .object entries => Document.stringsOfEntries entries
  | _ => []

def Document.stringsOfItems : List Document → List String
  | [] => []
  | d :: rest => d.strings ++ Document.stringsOfItems rest

def Document.stringsOfEntries : List (String × Document) → List String
  | [] => []
  | (_, d) :: rest => d.strings ++ Document.stringsOfEntries rest

end

namespace Tree

theorem mem_leavesOfEntries {entries : List (String × Tree)} {origin : Origin} {part : Nat}
    {leaf : Leaf} (h : leaf ∈ leavesOfEntries entries origin part) :
    ∃ entry ∈ entries, ∃ place, leaf ∈ entry.2.leaves place := by
  induction entries generalizing part with
  | nil => cases h
  | cons entry rest ih =>
    obtain ⟨key, t⟩ := entry
    rcases List.mem_append.mp h with h | h
    · exact ⟨_, List.mem_cons_self, _, h⟩
    · obtain ⟨entry, hmem, place, hleaf⟩ := ih h
      exact ⟨entry, List.mem_cons_of_mem _ hmem, place, hleaf⟩

section Sources

variable {env : Environment}

mutual

/-- An expression of a compiled tree is a string of the document, compiled. -/
theorem ofDocument_leaves : ∀ {path : String} {d : Document} {t : Tree},
    ofDocument env path d = .ok t → ∀ {origin : Origin} {leaf : Leaf}, leaf ∈ t.leaves origin →
      ∃ source ∈ d.strings, env.compile source = .ok leaf.program
  | _, .null, _, h, _, _, hleaf => by simp only [ofDocument] at h; cases h; cases hleaf
  | _, .bool _, _, h, _, _, hleaf => by simp only [ofDocument] at h; cases h; cases hleaf
  | _, .number _, _, h, _, _, hleaf => by simp only [ofDocument] at h; cases h; cases hleaf
  | _, .string source, _, h, _, _, hleaf => by
    simp only [ofDocument] at h
    split at h <;> cases h
    rename_i hcompile
    rw [leaves, List.mem_singleton] at hleaf
    subst hleaf
    exact ⟨source, by simp [Document.strings], hcompile⟩
  | _, .array _, _, h, _, _, hleaf => by
    simp only [ofDocument, bind_eq_ok] at h
    obtain ⟨items, hitems, h⟩ := h
    cases h
    exact ofItems_leaves hitems hleaf
  | _, .object _, _, h, _, _, hleaf => by
    simp only [ofDocument, bind_eq_ok] at h
    obtain ⟨entries, hentries, h⟩ := h
    cases h
    obtain ⟨entry, hmem, place, hleaf⟩ := mem_leavesOfEntries hleaf
    exact ofEntries_leaves hentries (Entries.mem_of_mem_ofPairs hmem) hleaf

theorem ofItems_leaves : ∀ {path : String} {number : Nat} {ds : List Document}
    {items : List Tree}, ofItems env path number ds = .ok items → ∀ {origin : Origin} {part : Nat}
    {leaf : Leaf}, leaf ∈ leavesOfItems items origin part →
      ∃ source ∈ Document.stringsOfItems ds, env.compile source = .ok leaf.program
  | _, _, [], _, h, _, _, _, hleaf => by simp only [ofItems] at h; cases h; cases hleaf
  | _, _, _ :: _, _, h, _, _, _, hleaf => by
    simp only [ofItems, bind_eq_ok] at h
    obtain ⟨first, hfirst, rest, hrest, h⟩ := h
    cases h
    rcases List.mem_append.mp hleaf with hleaf | hleaf
    · obtain ⟨source, hmem, hcompile⟩ := ofDocument_leaves hfirst hleaf
      exact ⟨source, List.mem_append_left _ hmem, hcompile⟩
    · obtain ⟨source, hmem, hcompile⟩ := ofItems_leaves hrest hleaf
      exact ⟨source, List.mem_append_right _ hmem, hcompile⟩

theorem ofEntries_leaves : ∀ {path : String} {ds : List (String × Document)}
    {entries : List (String × Tree)}, ofEntries env path ds = .ok entries →
    ∀ {entry : String × Tree}, entry ∈ entries → ∀ {origin : Origin} {leaf : Leaf},
      leaf ∈ entry.2.leaves origin →
      ∃ source ∈ Document.stringsOfEntries ds, env.compile source = .ok leaf.program
  | _, [], _, h, _, hentry, _, _, _ => by simp only [ofEntries] at h; cases h; cases hentry
  | _, (_, _) :: _, _, h, _, hentry, _, _, hleaf => by
    simp only [ofEntries, bind_eq_ok] at h
    obtain ⟨first, hfirst, rest, hrest, h⟩ := h
    cases h
    rcases List.mem_cons.mp hentry with rfl | hentry
    · obtain ⟨source, hmem, hcompile⟩ := ofDocument_leaves hfirst hleaf
      exact ⟨source, List.mem_append_left _ hmem, hcompile⟩
    · obtain ⟨source, hmem, hcompile⟩ := ofEntries_leaves hrest hentry hleaf
      exact ⟨source, List.mem_append_right _ hmem, hcompile⟩

end

end Sources

/-- What a text compiles to is the compiled document of the text. -/
theorem compile_eq_ok {env : Environment} {text : String} {t : Tree}
    (h : compile env text = .ok t) :
    ∃ d, Document.read? text = some d ∧ ofDocument env "" d = .ok t := by
  unfold compile at h
  split at h
  · rename_i d hread
    unfold compileDocument at h
    split at h
    · exact ⟨_, hread, h⟩
    · exact ⟨_, hread, h⟩
    · cases h
  · cases h

/-- The root of a compiled text is a container. -/
theorem compile_container {env : Environment} {text : String} {t : Tree}
    (h : compile env text = .ok t) :
    (∃ entries, t = object entries) ∨ ∃ items, t = list items := by
  unfold compile at h
  split at h
  · unfold compileDocument at h
    split at h
    · simp only [ofDocument, bind_eq_ok] at h
      obtain ⟨entries, -, h⟩ := h
      cases h
      exact .inl ⟨_, rfl⟩
    · simp only [ofDocument, bind_eq_ok] at h
      obtain ⟨items, -, h⟩ := h
      cases h
      exact .inr ⟨_, rfl⟩
    · cases h
  · cases h

/-- A compiled tree has compiled expressions. -/
theorem compile_leaves {env : Environment} {text : String} {t : Tree}
    (h : compile env text = .ok t) {origin : Origin} {leaf : Leaf}
    (hleaf : leaf ∈ t.leaves origin) :
    ∃ source, env.compile source = .ok leaf.program := by
  obtain ⟨d, -, h⟩ := compile_eq_ok h
  obtain ⟨source, -, hcompile⟩ := ofDocument_leaves h hleaf
  exact ⟨source, hcompile⟩

/-- A compiled tree has distinct keys. -/
theorem compile_distinct {env : Environment} {text : String} {t : Tree}
    (h : compile env text = .ok t) : t.Distinct := by
  obtain ⟨d, -, h⟩ := compile_eq_ok h
  exact ofDocument_distinct h

end Tree

/-! ## Other environments -/

/-- The same expression in another environment. -/
def Program.within (env : Environment) (p : Program) : Program := { p with environment := env }

namespace Tree

mutual

/-- The same tree in another environment. -/
def within (env : Environment) : Tree → Tree
  | literal value => literal value
  | expression program => expression (program.within env)
  | object entries => object (withinEntries env entries)
  | list items => list (withinItems env items)

def withinEntries (env : Environment) : List (String × Tree) → List (String × Tree)
  | [] => []
  | (key, t) :: rest => (key, t.within env) :: withinEntries env rest

def withinItems (env : Environment) : List Tree → List Tree
  | [] => []
  | t :: rest => t.within env :: withinItems env rest

end

theorem withinEntries_eq (env : Environment) (entries : List (String × Tree)) :
    withinEntries env entries = Entries.mapValues (within env) entries := by
  induction entries with
  | nil => rfl
  | cons entry rest ih => rw [withinEntries, ih]; rfl

section Within

variable {env env' : Environment}

mutual

/-- The place of a document does not matter to a tree that has no faults. -/
theorem ofDocument_within : ∀ {path : String} (path' : String) {d : Document} {t : Tree},
    (∀ source ∈ d.strings, ∀ p, env.compile source = .ok p →
      env'.compile source = .ok (p.within env')) →
    ofDocument env path d = .ok t → ofDocument env' path' d = .ok (t.within env')
  | _, _, .null, _, _, h => by simp only [ofDocument] at h ⊢; cases h; rfl
  | _, _, .bool _, _, _, h => by simp only [ofDocument] at h ⊢; cases h; rfl
  | _, _, .number _, _, _, h => by simp only [ofDocument] at h ⊢; cases h; rfl
  | _, _, .string source, _, henv, h => by
    simp only [ofDocument] at h ⊢
    split at h <;> cases h
    rename_i p hcompile
    rw [henv source (by simp [Document.strings]) p hcompile, within]
  | _, path', .array _, _, henv, h => by
    simp only [ofDocument, bind_eq_ok] at h ⊢
    obtain ⟨items, hitems, h⟩ := h
    cases h
    exact ⟨_, ofItems_within path' henv hitems, rfl⟩
  | _, path', .object _, _, henv, h => by
    simp only [ofDocument, bind_eq_ok] at h ⊢
    obtain ⟨entries, hentries, h⟩ := h
    cases h
    refine ⟨_, ofEntries_within path' henv hentries, ?_⟩
    rw [within, withinEntries_eq, withinEntries_eq, Entries.mapValues_ofPairs]
    rfl

theorem ofItems_within : ∀ {path : String} (path' : String) {number : Nat} {ds : List Document}
    {items : List Tree}, (∀ source ∈ Document.stringsOfItems ds, ∀ p,
      env.compile source = .ok p → env'.compile source = .ok (p.within env')) →
    ofItems env path number ds = .ok items →
    ofItems env' path' number ds = .ok (withinItems env' items)
  | _, _, _, [], _, _, h => by simp only [ofItems] at h ⊢; cases h; rfl
  | _, path', _, _ :: _, _, henv, h => by
    simp only [ofItems, bind_eq_ok] at h ⊢
    obtain ⟨first, hfirst, rest, hrest, h⟩ := h
    cases h
    exact ⟨_, ofDocument_within _ (fun s hs => henv s (List.mem_append_left _ hs)) hfirst,
      _, ofItems_within path' (fun s hs => henv s (List.mem_append_right _ hs)) hrest, rfl⟩

theorem ofEntries_within : ∀ {path : String} (path' : String) {ds : List (String × Document)}
    {entries : List (String × Tree)}, (∀ source ∈ Document.stringsOfEntries ds, ∀ p,
      env.compile source = .ok p → env'.compile source = .ok (p.within env')) →
    ofEntries env path ds = .ok entries →
    ofEntries env' path' ds = .ok (withinEntries env' entries)
  | _, _, [], _, _, h => by simp only [ofEntries] at h ⊢; cases h; rfl
  | _, path', (_, _) :: _, _, henv, h => by
    simp only [ofEntries, bind_eq_ok] at h ⊢
    obtain ⟨first, hfirst, rest, hrest, h⟩ := h
    cases h
    exact ⟨_, ofDocument_within _ (fun s hs => henv s (List.mem_append_left _ hs)) hfirst,
      _, ofEntries_within path' (fun s hs => henv s (List.mem_append_right _ hs)) hrest, rfl⟩

end

/-- A text compiles to the same tree where its strings compile to the same expressions. -/
theorem compile_within {text : String} {t : Tree}
    (henv : ∀ source p, env.compile source = .ok p → env'.compile source = .ok (p.within env'))
    (h : compile env text = .ok t) : compile env' text = .ok (t.within env') := by
  unfold compile at h ⊢
  split at h
  · unfold compileDocument at h ⊢
    split at h
    · exact ofDocument_within _ (fun source _ => henv source) h
    · exact ofDocument_within _ (fun source _ => henv source) h
    · cases h
  · cases h

/-- The expressions of a compiled tree are in its environment already. -/
theorem within_of_compile {text : String} {t : Tree} (h : compile env text = .ok t) :
    t.within env = t := by
  refine Except.ok.inj ((compile_within (fun source p hp => ?_) h).symm.trans h)
  obtain ⟨_, _, _, rfl⟩ := Environment.compile_eq_ok.mp hp
  exact hp

end Within

end Tree

end JsonTemplate
