/-
The nodes of an expression and where they stand. Checking keeps the spans of all nodes
(`spans_resolveTypes`).
-/
import JsonTemplate.Check

namespace JsonTemplate.Expr

mutual

/-- The expression and its parts, each before its own. -/
def nodes : Expr → List Expr
  | e@(literal _ _) | e@(ident _ _) => [e]
  | e@(list _ items) => e :: nodesOfItems items
  | e@(dict _ entries) => e :: nodesOfEntries entries
  | e@(select _ operand _) | e@(has _ operand _) | e@(unary _ _ operand) => e :: operand.nodes
  | e@(index _ left right) | e@(binary _ _ left right) => e :: (left.nodes ++ right.nodes)
  | e@(call _ target _ args) => e :: (nodesOfOptional target ++ nodesOfItems args)
  | e@(quantify _ _ range _ test) => e :: (range.nodes ++ test.nodes)
  | e@(collect _ range _ test image) =>
    e :: (range.nodes ++ (nodesOfOptional test ++ image.nodes))
  | e@(conditional _ condition yes no) => e :: (condition.nodes ++ (yes.nodes ++ no.nodes))

def nodesOfOptional : Option Expr → List Expr
  | none => []
  | some e => e.nodes

def nodesOfItems : List Expr → List Expr
  | [] => []
  | e :: rest => e.nodes ++ nodesOfItems rest

def nodesOfEntries : List (Expr × Expr) → List Expr
  | [] => []
  | (key, e) :: rest => key.nodes ++ (e.nodes ++ nodesOfEntries rest)

end

/-- The parts of an expression, in the order of the source. -/
def parts : Expr → List Expr
  | literal _ _ | ident _ _ => []
  | list _ items => items
  | dict _ entries => entries.flatMap fun entry => [entry.1, entry.2]
  | select _ operand _ | has _ operand _ | unary _ _ operand => [operand]
  | index _ left right | binary _ _ left right => [left, right]
  | call _ target _ args => target.toList ++ args
  | quantify _ _ range _ test => [range, test]
  | collect _ range _ test image => range :: (test.toList ++ [image])
  | conditional _ condition yes no => [condition, yes, no]

theorem nodesOfOptional_eq (e : Option Expr) : nodesOfOptional e = e.toList.flatMap nodes := by
  cases e with
  | none => rfl
  | some e => simp [nodesOfOptional]

theorem nodesOfItems_eq (items : List Expr) : nodesOfItems items = items.flatMap nodes := by
  induction items with
  | nil => rfl
  | cons e rest ih => rw [nodesOfItems, ih, List.flatMap_cons]

theorem nodesOfEntries_eq (entries : List (Expr × Expr)) :
    nodesOfEntries entries = (entries.flatMap fun entry => [entry.1, entry.2]).flatMap nodes := by
  induction entries with
  | nil => rfl
  | cons entry rest ih => simp [nodesOfEntries, ih]

/-- The nodes are the expression and those of its parts. -/
theorem nodes_eq (e : Expr) : e.nodes = e :: e.parts.flatMap nodes := by
  cases e <;> simp [nodes, parts, nodesOfOptional_eq, nodesOfItems_eq, nodesOfEntries_eq]

theorem self_mem_nodes (e : Expr) : e ∈ e.nodes := by
  cases e <;> exact List.mem_cons_self

theorem nodes_sublist_of_part {e part : Expr} (h : part ∈ e.parts) :
    part.nodes.Sublist (e.parts.flatMap nodes) := by
  obtain ⟨before, after, hparts⟩ := List.append_of_mem h
  rw [hparts, List.flatMap_append, List.flatMap_cons]
  exact (List.sublist_append_left _ _).trans (List.sublist_append_right _ _)

theorem nodes_subset_of_part {e part : Expr} (h : part ∈ e.parts) : part.nodes ⊆ e.nodes := by
  intro n hn
  rw [nodes_eq]
  exact List.mem_cons_of_mem _ ((nodes_sublist_of_part h).subset hn)

theorem length_nodes_of_part {e part : Expr} (h : part ∈ e.parts) :
    part.nodes.length < e.nodes.length := by
  rw [nodes_eq e, List.length_cons]
  exact Nat.lt_succ_of_le (nodes_sublist_of_part h).length_le

/-- What holds of a tree if it holds of its parts, holds of all trees. -/
@[elab_as_elim] theorem parts_induction {motive : Expr → Prop} (e : Expr)
    (ofParts : ∀ e, (∀ part ∈ e.parts, motive part) → motive e) : motive e :=
  ofParts e fun part _ => parts_induction part ofParts
termination_by e.nodes.length
decreasing_by exact length_nodes_of_part ‹_›

/-- The nodes of a node are nodes of the tree. -/
theorem nodes_sublist {e n : Expr} (h : n ∈ e.nodes) : n.nodes.Sublist e.nodes := by
  induction e using parts_induction with
  | ofParts e ih =>
    rw [nodes_eq, List.mem_cons, List.mem_flatMap] at h
    rcases h with rfl | ⟨part, hpart, hn⟩
    · exact List.Sublist.refl _
    · rw [nodes_eq e]
      exact ((ih part hpart hn).trans (nodes_sublist_of_part hpart)).cons _

/-! ## Spans -/

/-- Where the nodes of an expression stand. -/
def spans (e : Expr) : List Span := e.nodes.map span

def spansOfOptional (e : Option Expr) : List Span := (nodesOfOptional e).map span

def spansOfItems (items : List Expr) : List Span := (nodesOfItems items).map span

def spansOfEntries (entries : List (Expr × Expr)) : List Span := (nodesOfEntries entries).map span

section Spans

variable (s : Span)

@[simp] theorem spans_literal (value : Literal) : (literal s value).spans = [s] := rfl

@[simp] theorem spans_ident (name : String) : (ident s name).spans = [s] := rfl

@[simp] theorem spans_list (items : List Expr) :
    (list s items).spans = s :: spansOfItems items := rfl

@[simp] theorem spans_dict (entries : List (Expr × Expr)) :
    (dict s entries).spans = s :: spansOfEntries entries := rfl

@[simp] theorem spans_select (operand : Expr) (field : String) :
    (select s operand field).spans = s :: operand.spans := rfl

@[simp] theorem spans_has (operand : Expr) (field : String) :
    (has s operand field).spans = s :: operand.spans := rfl

@[simp] theorem spans_unary (op : UnaryOp) (operand : Expr) :
    (unary s op operand).spans = s :: operand.spans := rfl

@[simp] theorem spans_index (operand i : Expr) :
    (index s operand i).spans = s :: (operand.spans ++ i.spans) :=
  congrArg (List.cons s) List.map_append

@[simp] theorem spans_binary (op : BinaryOp) (left right : Expr) :
    (binary s op left right).spans = s :: (left.spans ++ right.spans) :=
  congrArg (List.cons s) List.map_append

@[simp] theorem spans_call (target : Option Expr) (function : String) (args : List Expr) :
    (call s target function args).spans = s :: (spansOfOptional target ++ spansOfItems args) :=
  congrArg (List.cons s) List.map_append

@[simp] theorem spans_quantify (q : Quantifier) (range : Expr) (name : String) (test : Expr) :
    (quantify s q range name test).spans = s :: (range.spans ++ test.spans) :=
  congrArg (List.cons s) List.map_append

@[simp] theorem spans_collect (range : Expr) (name : String) (test : Option Expr) (image : Expr) :
    (collect s range name test image).spans =
      s :: (range.spans ++ (spansOfOptional test ++ image.spans)) :=
  congrArg (List.cons s) (List.map_append.trans (congrArg _ List.map_append))

@[simp] theorem spans_conditional (condition yes no : Expr) :
    (conditional s condition yes no).spans =
      s :: (condition.spans ++ (yes.spans ++ no.spans)) :=
  congrArg (List.cons s) (List.map_append.trans (congrArg _ List.map_append))

end Spans

@[simp] theorem spansOfOptional_none : spansOfOptional none = [] := rfl

@[simp] theorem spansOfOptional_some (e : Expr) : spansOfOptional (some e) = e.spans := rfl

@[simp] theorem spansOfItems_nil : spansOfItems [] = [] := rfl

@[simp] theorem spansOfItems_cons (e : Expr) (rest : List Expr) :
    spansOfItems (e :: rest) = e.spans ++ spansOfItems rest := List.map_append

@[simp] theorem spansOfEntries_nil : spansOfEntries [] = [] := rfl

@[simp] theorem spansOfEntries_cons (key e : Expr) (rest : List (Expr × Expr)) :
    spansOfEntries ((key, e) :: rest) = key.spans ++ (e.spans ++ spansOfEntries rest) :=
  List.map_append.trans (congrArg _ List.map_append)

/-! ## Names of types -/

section ResolveTypes

variable (env : Environment)

mutual

theorem spans_resolveTypes (bound : List String) :
    ∀ e : Expr, (resolveTypes env bound e).spans = e.spans
  | literal _ _ => rfl
  | ident span name => by
    rw [resolveTypes, resolveName]
    split
    · rfl
    · split <;> rfl
  | list _ items => by simp [resolveTypes, spans_resolveItems bound items]
  | dict _ entries => by simp [resolveTypes, spans_resolveEntries bound entries]
  | select _ operand _ | has _ operand _ | unary _ _ operand => by
    simp [resolveTypes, spans_resolveTypes bound operand]
  | index _ left right | binary _ _ left right => by
    simp [resolveTypes, spans_resolveTypes bound left, spans_resolveTypes bound right]
  | call _ target _ args => by
    simp [resolveTypes, spans_resolveOptional bound target, spans_resolveItems bound args]
  | quantify _ _ range name test => by
    simp [resolveTypes, spans_resolveTypes bound range, spans_resolveTypes (name :: bound) test]
  | collect _ range name test image => by
    simp [resolveTypes, spans_resolveTypes bound range, spans_resolveOptional (name :: bound) test,
      spans_resolveTypes (name :: bound) image]
  | conditional _ condition yes no => by
    simp [resolveTypes, spans_resolveTypes bound condition, spans_resolveTypes bound yes,
      spans_resolveTypes bound no]

theorem spans_resolveOptional (bound : List String) :
    ∀ e : Option Expr, spansOfOptional (resolveOptional env bound e) = spansOfOptional e
  | none => rfl
  | some e => by simp [resolveOptional, spans_resolveTypes bound e]

theorem spans_resolveItems (bound : List String) :
    ∀ items : List Expr, spansOfItems (resolveItems env bound items) = spansOfItems items
  | [] => rfl
  | e :: rest => by
    simp [resolveItems, spans_resolveTypes bound e, spans_resolveItems bound rest]

theorem spans_resolveEntries (bound : List String) : ∀ entries : List (Expr × Expr),
    spansOfEntries (resolveEntries env bound entries) = spansOfEntries entries
  | [] => rfl
  | (key, e) :: rest => by
    simp [resolveEntries, spans_resolveTypes bound key, spans_resolveTypes bound e,
      spans_resolveEntries bound rest]

end

end ResolveTypes

end JsonTemplate.Expr
