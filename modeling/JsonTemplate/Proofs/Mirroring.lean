/-
Trees mirror documents. A text whose strings are all expressions compiles to a tree that is the
document again once its expressions are the strings they were read from; any other text is refused
for the first string, in document order, that is no expression, and the path in the fault is the
JSON pointer to that string (`compile_mirrors_or_locates`). A document that is read lists no key
twice, so a pointer leads to one place.
-/
import JsonTemplate.Proofs.Compilation
import JsonTemplate.Proofs.Nesting
import JsonTemplate.Proofs.Pointers

namespace JsonTemplate

/-! ## Keys of documents that are read -/

namespace Document

namespace Reading

/-- A token that is a document has distinct keys. -/
def Token.Distinct : Token → Prop
  | .scalar d => d.Distinct
  | _ => True

def Frame.Distinct : Frame → Prop
  | .array done => ∀ d ∈ done, d.Distinct
  | .object done _ => ∀ entry ∈ done, entry.2.Distinct

/-- What has been read so far lists no key twice. -/
def State.Distinct (s : State) : Prop :=
  (∀ frame ∈ s.stack, frame.Distinct) ∧ ∀ d, s.want = .nothing d → d.Distinct

/-- While more is to come, only the open containers count. -/
theorem distinct_of_stack {stack : List Frame} {want : Want}
    (hstack : ∀ frame ∈ stack, frame.Distinct) (hwant : ∀ d, want ≠ .nothing d) :
    State.Distinct ⟨stack, want⟩ :=
  ⟨hstack, fun d h => absurd h (hwant d)⟩

theorem next?_distinct {c : Char} {rest : List Char} {token : Token} {length : Nat}
    (h : next? c rest = some (token, length)) : token.Distinct := by
  cases token with
  | scalar d =>
    -- Only the scalars are tokens of their own.
    have hscalar : d = .null ∨ (∃ b, d = .bool b) ∨ ∃ n, d = .number n := by
      unfold next? at h
      split at h <;> grind [Option.map_eq_some_iff]
    rcases hscalar with rfl | ⟨b, rfl⟩ | ⟨n, rfl⟩ <;> trivial
  | _ => trivial

theorem tokens?_distinct : ∀ {skip : Nat} {text : List Char} {tokens : List Token},
    tokens? skip text = some tokens → ∀ token ∈ tokens, token.Distinct
  | _, [], _, h => by
    cases h
    simp
  | skip + 1, _ :: rest, _, h => @tokens?_distinct skip rest _ h
  | 0, c :: rest, tokens, h => by
    simp only [tokens?] at h
    split at h
    · exact tokens?_distinct h
    · split at h
      · cases h
      · rename_i token length hnext
        obtain ⟨others, hothers, rfl⟩ := Option.map_eq_some_iff.mp h
        exact List.forall_mem_cons.mpr ⟨next?_distinct hnext, tokens?_distinct hothers⟩

section Step

variable {stack : List Frame} {s : State} (hstack : ∀ frame ∈ stack, frame.Distinct)

include hstack

theorem put_distinct {d : Document} (hd : d.Distinct) : (put d stack).Distinct := by
  cases stack with
  | nil => exact ⟨by simp [put], fun other h => by cases h; exact hd⟩
  | cons frame outer =>
    rw [List.forall_mem_cons] at hstack
    cases frame with
    | array done =>
      have hframe : (Frame.array (d :: done)).Distinct := List.forall_mem_cons.mpr ⟨hd, hstack.1⟩
      exact distinct_of_stack (List.forall_mem_cons.mpr ⟨hframe, hstack.2⟩) (by simp)
    | object done key =>
      have hframe : (Frame.object ((key, d) :: done) key).Distinct :=
        List.forall_mem_cons.mpr ⟨hd, hstack.1⟩
      exact distinct_of_stack (List.forall_mem_cons.mpr ⟨hframe, hstack.2⟩) (by simp)

theorem close_distinct {array : Bool} (h : close array stack = some s) : s.Distinct := by
  cases stack with
  | nil => cases h
  | cons frame outer =>
    rw [List.forall_mem_cons] at hstack
    cases frame with
    | array done =>
      simp only [close] at h
      split at h <;> cases h
      refine put_distinct hstack.2 (distinctItems_iff.mpr fun d hmem => ?_)
      exact hstack.1 d (List.mem_reverse.mp hmem)
    | object done key =>
      simp only [close] at h
      split at h <;> cases h
      refine put_distinct hstack.2 ⟨Entries.distinct_ofPairs _, ?_⟩
      refine distinctEntries_iff.mpr fun entry hmem => ?_
      exact hstack.1 entry (List.mem_reverse.mp (Entries.mem_of_mem_ofPairs hmem))

theorem start_distinct {depth : Nat} {token : Token} (htoken : token.Distinct)
    (h : start depth stack token = some s) : s.Distinct := by
  cases token with
  | scalar d =>
    cases h
    exact put_distinct hstack htoken
  | string text =>
    cases h
    exact put_distinct hstack trivial
  | openArray =>
    simp only [start] at h
    split at h <;> cases h
    exact distinct_of_stack (List.forall_mem_cons.mpr ⟨by simp [Frame.Distinct], hstack⟩) (by simp)
  | openObject =>
    simp only [start] at h
    split at h <;> cases h
    exact distinct_of_stack (List.forall_mem_cons.mpr ⟨by simp [Frame.Distinct], hstack⟩) (by simp)
  | _ => cases h

theorem setKey_distinct {key : String} (h : setKey key stack = some s) : s.Distinct := by
  cases stack with
  | nil => cases h
  | cons frame outer =>
    cases frame with
    | array done => cases h
    | object done other =>
      cases h
      rw [List.forall_mem_cons] at hstack
      exact distinct_of_stack (List.forall_mem_cons.mpr hstack) (by simp)

end Step

theorem step_distinct {depth : Nat} {s s' : State} {token : Token} (hs : s.Distinct)
    (htoken : token.Distinct) (h : step depth s token = some s') : s'.Distinct := by
  obtain ⟨stack, want⟩ := s
  have hstack : ∀ frame ∈ stack, frame.Distinct := hs.1
  cases want with
  | value => exact start_distinct hstack htoken h
  | firstItem =>
    cases token with
    | closeArray => exact close_distinct hstack h
    | _ =>
      simp only [step] at h
      exact start_distinct hstack htoken h
  | firstKey =>
    cases token with
    | closeObject => exact close_distinct hstack h
    | string key => exact setKey_distinct hstack h
    | _ => cases h
  | key =>
    cases token with
    | string key => exact setKey_distinct hstack h
    | _ => cases h
  | colon =>
    cases token with
    | colon =>
      cases h
      exact distinct_of_stack hstack (by simp)
    | _ => cases h
  | comma =>
    cases token with
    | closeArray => exact close_distinct hstack h
    | closeObject => exact close_distinct hstack h
    | comma =>
      rcases stack with _ | ⟨_ | _, outer⟩ <;> cases h <;> exact distinct_of_stack hstack (by simp)
    | _ => cases h
  | nothing d => cases h

theorem steps_distinct {depth : Nat} : ∀ {tokens : List Token} {s s' : State}, s.Distinct →
    (∀ token ∈ tokens, token.Distinct) → tokens.foldlM (step depth) s = some s' → s'.Distinct
  | [], _, _, hs, _, h => by
    cases h
    exact hs
  | token :: rest, s, _, hs, htokens, h => by
    rw [List.forall_mem_cons] at htokens
    rw [List.foldlM_cons] at h
    obtain ⟨between, hstep, h⟩ := Option.bind_eq_some_iff.mp h
    exact steps_distinct (step_distinct hs htokens.1 hstep) htokens.2 h

end Reading

open Reading

/-- A document that is read lists no key twice, whatever its text does. -/
theorem read?_distinct {text : String} {d : Document} (h : read? text = some d) : d.Distinct := by
  obtain ⟨tokens, htokens, hsteps⟩ := readWithin?_eq_some.mp h
  have hstart : State.Distinct ⟨[], .value⟩ := distinct_of_stack (by simp) (by simp)
  exact (steps_distinct hstart (tokens?_distinct htokens) hsteps).2 d rfl

/-! ## Documents and trees -/

mutual

/-- The document with its numbers as doubles. -/
def inDoubles : Document → Document
  | .number n => .number (.double n.toBinary64)
  | array items => array (inDoublesItems items)
  | object entries => object (inDoublesEntries entries)
  | d => d

def inDoublesItems : List Document → List Document
  | [] => []
  | d :: rest => d.inDoubles :: inDoublesItems rest

def inDoublesEntries : List (String × Document) → List (String × Document)
  | [] => []
  | (key, d) :: rest => (key, d.inDoubles) :: inDoublesEntries rest

end

end Document

namespace Tree

mutual

/-- The tree as a document: constants as they are, expressions as the strings they were read
from. -/
def toDocument : Tree → Document
  | literal .null => .null
  | literal (.bool b) => .bool b
  | literal (.number n) => .number (.double n)
  | expression p => .string p.source
  | object entries => .object (entriesToDocuments entries)
  | list items => .array (itemsToDocuments items)

def itemsToDocuments : List Tree → List Document
  | [] => []
  | t :: rest => t.toDocument :: itemsToDocuments rest

def entriesToDocuments : List (String × Tree) → List (String × Document)
  | [] => []
  | (key, t) :: rest => (key, t.toDocument) :: entriesToDocuments rest

end

section Compile

variable {env : Environment}

mutual

/-- A compiled tree is the document again, with an expression for every string. -/
theorem ofDocument_mirrors : ∀ {d : Document} {path : String} {t : Tree}, d.Distinct →
    ofDocument env path d = .ok t →
      t.toDocument = d.inDoubles ∧ t.expressionCount = d.places.length
  | .null, _, _, _, h | .bool _, _, _, _, h | .number _, _, _, _, h => by
    simp only [ofDocument] at h
    cases h
    exact ⟨rfl, rfl⟩
  | .string source, _, _, _, h => by
    simp only [ofDocument] at h
    split at h <;> cases h
    rename_i p hcompile
    obtain ⟨e, -, -, rfl⟩ := Environment.compile_eq_ok.mp hcompile
    exact ⟨rfl, rfl⟩
  | .array items, _, _, hd, h => by
    simp only [ofDocument, bind_eq_ok] at h
    obtain ⟨ts, hts, h⟩ := h
    cases h
    obtain ⟨hsame, hcount⟩ := ofItems_mirrors hd hts
    exact ⟨by rw [toDocument, hsame, Document.inDoubles], hcount 0⟩
  | .object entries, _, _, hd, h => by
    simp only [ofDocument, bind_eq_ok] at h
    obtain ⟨ts, hts, h⟩ := h
    cases h
    have hkeys : Entries.Distinct ts := by
      rw [Entries.Distinct, ofEntries_keys hts]
      exact hd.1
    obtain ⟨hsame, hcount⟩ := ofEntries_mirrors hd.2 hts
    rw [Entries.ofPairs_of_distinct hkeys]
    exact ⟨by rw [toDocument, hsame, Document.inDoubles], hcount⟩

theorem ofItems_mirrors : ∀ {ds : List Document} {path : String} {number : Nat} {ts : List Tree},
    Document.DistinctItems ds → ofItems env path number ds = .ok ts →
      itemsToDocuments ts = Document.inDoublesItems ds ∧
        ∀ first, countItems ts = (Document.placesOfItems first ds).length
  | [], _, _, _, _, h => by
    simp only [ofItems] at h
    cases h
    exact ⟨rfl, fun _ => rfl⟩
  | _ :: _, _, _, _, hd, h => by
    simp only [ofItems, bind_eq_ok] at h
    obtain ⟨first, hfirst, rest, hrest, h⟩ := h
    cases h
    obtain ⟨hsame, hcount⟩ := ofDocument_mirrors hd.1 hfirst
    obtain ⟨hothers, hcounts⟩ := ofItems_mirrors hd.2 hrest
    refine ⟨by rw [itemsToDocuments, hsame, hothers, Document.inDoublesItems], fun i => ?_⟩
    rw [countItems, hcount, hcounts (i + 1), Document.placesOfItems, List.length_append,
      List.length_map]

theorem ofEntries_mirrors : ∀ {ds : List (String × Document)} {path : String}
    {ts : List (String × Tree)}, Document.DistinctEntries ds → ofEntries env path ds = .ok ts →
      entriesToDocuments ts = Document.inDoublesEntries ds ∧
        countEntries ts = (Document.placesOfEntries ds).length
  | [], _, _, _, h => by
    simp only [ofEntries] at h
    cases h
    exact ⟨rfl, rfl⟩
  | (_, _) :: _, _, _, hd, h => by
    simp only [ofEntries, bind_eq_ok] at h
    obtain ⟨first, hfirst, rest, hrest, h⟩ := h
    cases h
    obtain ⟨hsame, hcount⟩ := ofDocument_mirrors hd.1 hfirst
    obtain ⟨hothers, hcounts⟩ := ofEntries_mirrors hd.2 hrest
    refine ⟨by rw [entriesToDocuments, hsame, hothers, Document.inDoublesEntries], ?_⟩
    rw [countEntries, hcount, hcounts, Document.placesOfEntries, List.length_append,
      List.length_map]

end

/-! ## The first fault -/

/-- The fault of a string that is no expression, in a document at the end of `path`. -/
def faultAt? (env : Environment) (path : String) (place : List Document.Step × String) :
    Option TemplateFault :=
  match env.compile place.2 with
  | .ok _ => none
  | .error faults => some (.expression (path ++ Document.pointer place.1) place.2 faults)

theorem faultAt?_eq_none {path : String} {place : List Document.Step × String} :
    faultAt? env path place = none ↔ ∃ p, env.compile place.2 = .ok p := by
  unfold faultAt?
  cases env.compile place.2 <;> simp

theorem faultAt?_eq_some {path : String} {place : List Document.Step × String}
    {fault : TemplateFault} :
    faultAt? env path place = some fault ↔ ∃ faults, env.compile place.2 = .error faults ∧
      fault = .expression (path ++ Document.pointer place.1) place.2 faults := by
  unfold faultAt?
  cases env.compile place.2 <;> simp [eq_comm]

theorem faultAt?_extend {path : String} {step : Document.Step}
    (place : List Document.Step × String) :
    faultAt? env (extend path step.token) place = faultAt? env path (step :: place.1, place.2) := by
  have hpath : extend path step.token ++ Document.pointer place.1 =
      path ++ Document.pointer (step :: place.1) := by
    simp only [extend, Document.pointer, String.append_assoc]
  simp only [faultAt?, hpath]

/-- The strings of a part, as strings of the container. -/
theorem findSome?_faultAt? {path : String} (step : Document.Step)
    (places : List (List Document.Step × String)) :
    (places.map fun place => (step :: place.1, place.2)).findSome? (faultAt? env path) =
      places.findSome? (faultAt? env (extend path step.token)) := by
  rw [List.findSome?_map]
  congr 1
  funext place
  exact (faultAt?_extend place).symm

theorem extend_ne_empty (path step : String) : extend path step ≠ "" := by
  intro h
  have hlist := congrArg String.toList h
  simp [extend] at hlist

mutual

/-- Compiling stops at the first string that is no expression. -/
theorem failure?_ofDocument : ∀ (d : Document) {path : String}, path ≠ "" →
    failure? (ofDocument env path d) = d.places.findSome? (faultAt? env path)
  | .null, _, _ | .bool _, _, _ | .number _, _, _ => rfl
  | .string source, path, hpath => by
    have hempty : path.isEmpty = false := by simpa using hpath
    simp only [ofDocument, Document.places, List.findSome?_cons, List.findSome?_nil, faultAt?,
      Document.pointer, String.append_empty, hempty]
    cases env.compile source <;> rfl
  | .array items, path, _ => by
    rw [Document.places, ← failure?_ofItems items path, ofDocument]
    cases ofItems env path 0 items <;> rfl
  | .object entries, path, _ => by
    rw [Document.places, ← failure?_ofEntries entries path, ofDocument]
    cases ofEntries env path entries <;> rfl

theorem failure?_ofItems : ∀ (ds : List Document) (path : String) (number : Nat),
    failure? (ofItems env path number ds) =
      (Document.placesOfItems number ds).findSome? (faultAt? env path)
  | [], _, _ => rfl
  | d :: rest, path, number => by
    have hfirst := failure?_ofDocument d (extend_ne_empty path (toString number))
    rw [ofItems, failure?_seq, Document.placesOfItems, List.findSome?_append, hfirst,
      failure?_ofItems rest, findSome?_faultAt?]
    rfl

theorem failure?_ofEntries : ∀ (ds : List (String × Document)) (path : String),
    failure? (ofEntries env path ds) =
      (Document.placesOfEntries ds).findSome? (faultAt? env path)
  | [], _ => rfl
  | (key, d) :: rest, path => by
    have hfirst := failure?_ofDocument d (extend_ne_empty path (escapeStep key))
    rw [ofEntries, failure?_seq, Document.placesOfEntries, List.findSome?_append, hfirst,
      failure?_ofEntries rest, findSome?_faultAt?]
    rfl

end

/-- A container compiles unless one of its strings does not. -/
theorem failure?_compile {text : String} {d : Document} (hread : Document.read? text = some d)
    (hroot : (∃ entries, d = .object entries) ∨ ∃ items, d = .array items) :
    failure? (compile env text) = d.places.findSome? (faultAt? env "") := by
  rcases hroot with ⟨entries, rfl⟩ | ⟨items, rfl⟩
  · simp only [compile, hread, compileDocument, ofDocument]
    rw [Document.places, ← failure?_ofEntries]
    cases ofEntries env "" entries <;> rfl
  · simp only [compile, hread, compileDocument, ofDocument]
    rw [Document.places, ← failure?_ofItems]
    cases ofItems env "" 0 items <;> rfl

/-- A container compiles exactly when each of its strings does. -/
theorem compiles_iff {text : String} {d : Document} (hread : Document.read? text = some d)
    (hroot : (∃ entries, d = .object entries) ∨ ∃ items, d = .array items) :
    (∃ t, compile env text = .ok t) ↔ ∀ steps source, d.at? steps = some (.string source) →
      ∃ p, env.compile source = .ok p := by
  have hdistinct := Document.read?_distinct hread
  rw [← failure?_eq_none, failure?_compile hread hroot, List.findSome?_eq_none_iff]
  constructor
  · intro hnone steps source hat
    have hplace := hnone _ ((Document.mem_places hdistinct).mpr hat)
    rw [faultAt?_eq_none] at hplace
    exact hplace
  · intro hall place hmem
    rw [faultAt?_eq_none]
    exact hall place.1 place.2 ((Document.mem_places hdistinct).mp hmem)

end Compile

/-- **Compiling mirrors the document or locates the first bad string.** A text whose document is a
container compiles exactly when each of its strings is an expression, and the tree is the document
with expressions for strings. Otherwise the fault names the first string that is none, what is
wrong with it, and the JSON pointer to it. -/
theorem compile_mirrors_or_locates (env : Environment) {text : String} {d : Document}
    (hread : Document.read? text = some d)
    (hroot : (∃ entries, d = .object entries) ∨ ∃ items, d = .array items) :
    ((∃ t, compile env text = .ok t) ↔ ∀ steps source, d.at? steps = some (.string source) →
      ∃ p, env.compile source = .ok p) ∧
    (∀ t, compile env text = .ok t →
      t.toDocument = d.inDoubles ∧ t.expressionCount = d.places.length) ∧
    ∀ fault, compile env text = .error fault → ∃ before steps source after faults,
      d.places = before ++ (steps, source) :: after ∧
      fault = .expression (Document.pointer steps) source faults ∧
      d.resolve? (Document.pointer steps) = some (.string source) ∧
      env.compile source = .error faults ∧
      ∀ place ∈ before, ∃ p, env.compile place.2 = .ok p := by
  have hdistinct := Document.read?_distinct hread
  refine ⟨compiles_iff hread hroot, fun t ht => ?_, fun fault hfault => ?_⟩
  · obtain ⟨d', hread', hd'⟩ := compile_eq_ok ht
    cases hread.symm.trans hread'
    exact ofDocument_mirrors hdistinct hd'
  · rw [← failure?_eq_some, failure?_compile hread hroot, List.findSome?_eq_some_iff] at hfault
    obtain ⟨before, ⟨steps, source⟩, after, hplaces, hplace, hbefore⟩ := hfault
    obtain ⟨faults, hfaults, rfl⟩ := faultAt?_eq_some.mp hplace
    have hmem : (steps, source) ∈ d.places := by
      rw [hplaces]
      simp
    have hat := (Document.mem_places hdistinct).mp hmem
    refine ⟨before, steps, source, after, faults, hplaces, by rw [String.empty_append],
      Document.resolve?_pointer hat, hfaults, fun place hp => ?_⟩
    exact faultAt?_eq_none.mp (hbefore place hp)

/-- The second string of this text is no expression, and the keys on the way to it are escaped or
empty. -/
theorem compile_mirrors_or_locates_of_odd_keys :
    ∃ d, Document.read? "\x7b\"a/b~c\": [\"'x'\", \x7b\"\": \"nope(\"\x7d], \"z\": \"(\"\x7d" =
        some d ∧
      ∃ faults, compile .standard
          "\x7b\"a/b~c\": [\"'x'\", \x7b\"\": \"nope(\"\x7d], \"z\": \"(\"\x7d" =
            .error (.expression "/a~1b~0c/1/" "nope(" faults) ∧
        d.resolve? "/a~1b~0c/1/" = some (.string "nope(") ∧
        Environment.standard.compile "nope(" = .error faults := by
  have hfault : failure? (compile .standard
      "\x7b\"a/b~c\": [\"'x'\", \x7b\"\": \"nope(\"\x7d], \"z\": \"(\"\x7d") =
        some (.expression "/a~1b~0c/1/" "nope(" [⟨⟨5, 6⟩, .syntaxError "nope("⟩]) := by
    decide +kernel
  have hkind : (Document.read?
      "\x7b\"a/b~c\": [\"'x'\", \x7b\"\": \"nope(\"\x7d], \"z\": \"(\"\x7d").map
        Document.kind = some "object" := by
    decide +kernel
  rw [failure?_eq_some] at hfault
  obtain ⟨d, hread, hobject⟩ := Option.map_eq_some_iff.mp hkind
  have hroot : ∃ entries, d = .object entries := by
    cases d with
    | object entries => exact ⟨entries, rfl⟩
    | _ => simp [Document.kind] at hobject
  obtain ⟨_, steps, source, _, faults, -, hexpression, hresolve, hsource, -⟩ :=
    (compile_mirrors_or_locates .standard hread (.inl hroot)).2.2 _ hfault
  simp only [TemplateFault.expression.injEq] at hexpression
  obtain ⟨hpointer, rfl, rfl⟩ := hexpression
  rw [← hpointer] at hresolve
  exact ⟨d, hread, _, hfault, hresolve, hsource⟩

end Tree

end JsonTemplate
