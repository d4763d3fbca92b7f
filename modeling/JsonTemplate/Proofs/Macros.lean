/-
Calls with a meaning of their own and the trees they stand for. Expansion does not look at places
(`bare_expandMacros`), keeps the span of a tree, and is undone by writing each node of its own back
as the call it came from (`expandMacros_written`). If it fails, it points at a node of the tree
(`expandMacros_error`).
-/
import JsonTemplate.Proofs.Places
import Mathlib.Data.List.Forall2

namespace JsonTemplate

section Forall₂

variable {α β : Type} {R : α → β → Prop} {as : List α} {bs : List β}

theorem exists_left_of_forall₂ (h : List.Forall₂ R as bs) {b : β} (hb : b ∈ bs) :
    ∃ a ∈ as, R a b := by
  induction h with
  | nil => cases hb
  | @cons a b' as bs hab _ ih =>
    rcases List.mem_cons.mp hb with rfl | hb
    · exact ⟨a, List.mem_cons_self, hab⟩
    · obtain ⟨a', ha', hr⟩ := ih hb
      exact ⟨a', List.mem_cons_of_mem a ha', hr⟩

theorem exists_right_of_forall₂ (h : List.Forall₂ R as bs) {a : α} (ha : a ∈ as) :
    ∃ b ∈ bs, R a b :=
  exists_left_of_forall₂ (List.Forall₂.flip h) ha

end Forall₂

namespace Expr

/-! ## Places do not matter -/

/-- A tree without places is expanded like the tree with them. -/
theorem bare_expandMacros (e : Expr) :
    e.bare.expandMacros.toOption = e.expandMacros.toOption.map bare := by
  rw [bare_eq, respan_expandMacros, ← funext bare_eq]

/-- Trees that differ in places are expanded to trees that differ in places. -/
theorem expandMacros_of_bare {e : Expr} {f t : Expr} (h : e.bare = f)
    (ht : f.expandMacros = .ok t) : ∃ t', e.expandMacros = .ok t' ∧ t'.bare = t := by
  subst h
  have hbare := bare_expandMacros e
  rw [toOption_eq_some.mpr ht] at hbare
  obtain ⟨t', ht', rfl⟩ := Option.map_eq_some_iff.mp hbare.symm
  exact ⟨t', toOption_eq_some.mp ht', rfl⟩

/-! ## What a call stands for -/

/-- The name of a loop is bound by a name. -/
theorem loopName_ok {word : LoopWord} {e : Expr} {name : String} (h : loopName word e = .ok name) :
    ∃ span, e = ident span name := by
  cases e with
  | ident span _ =>
    cases h
    exact ⟨span, rfl⟩
  | _ => cases h

/-- The arguments of a loop and the tree it stands for. -/
inductive LoopTree (span : Span) : LoopWord → Expr → List Expr → Expr → Prop
  | image {range s name image} :
    LoopTree span .map range [ident s name, image] (collect span range name none image)
  | testedImage {range s name test image} : LoopTree span .map range [ident s name, test, image]
    (collect span range name (some test) image)
  | test {q range s name test} :
    LoopTree span (.quantifier q) range [ident s name, test] (quantify span q range name test)

/-- A call and the tree it stands for. -/
inductive CallTree (span : Span) : Option Expr → String → List Expr → Expr → Prop
  | presence {s operand field} :
    CallTree span none "has" [select s operand field] (has span operand field)
  | function {function args} : function ≠ "has" →
    CallTree span none function args (call span none function args)
  | loop {range function word args t} : LoopWord.ofName? function = some word →
    LoopTree span word range args t → CallTree span (some range) function args t
  | method {range function args} : LoopWord.ofName? function = none →
    CallTree span (some range) function args (call span (some range) function args)

theorem ofLoop_tree {span : Span} {word : LoopWord} {range : Expr} {args : List Expr} {t : Expr}
    (h : ofLoop span word range args = .ok t) : LoopTree span word range args t := by
  unfold ofLoop at h
  split at h
  case h_4 => cases h
  all_goals
    obtain ⟨name, hname, h⟩ := bind_eq_ok.mp h
    obtain ⟨s, rfl⟩ := loopName_ok hname
    cases h
  · exact .image
  · exact .testedImage
  · exact .test

theorem ofCall_tree {span : Span} {target : Option Expr} {function : String} {args : List Expr}
    {t : Expr} (h : ofCall span target function args = .ok t) :
    CallTree span target function args t := by
  unfold ofCall at h
  split at h
  · split at h
    · rename_i hhas
      subst hhas
      split at h <;> cases h
      exact .presence
    · rename_i hhas
      cases h
      exact .function hhas
  · split at h
    · rename_i hword
      exact .loop hword (ofLoop_tree h)
    · rename_i hword
      cases h
      exact .method hword

/-! ## The span and the literal of a tree -/

theorem CallTree.span_literal? {span : Span} {target : Option Expr} {function : String}
    {args : List Expr} {t : Expr} (h : CallTree span target function args t) :
    t.span = span ∧ t.literal? = none := by
  cases h with
  | loop _ hloop => cases hloop <;> exact ⟨rfl, rfl⟩
  | _ => exact ⟨rfl, rfl⟩

/-- Expansion keeps the span of a tree, and makes no literal of what is not one. -/
theorem expandMacros_span {e t : Expr} (h : e.expandMacros = .ok t) :
    t.span = e.span ∧ t.literal? = e.literal? := by
  cases e with
  | call span target function args =>
    simp only [expandMacros, bind_eq_ok] at h
    obtain ⟨target', -, args', -, h⟩ := h
    exact (ofCall_tree h).span_literal?
  | literal _ _ | ident _ _ =>
    cases h
    exact ⟨rfl, rfl⟩
  | list _ _ | dict _ _ | select _ _ _ | has _ _ _ | unary _ _ _ =>
    obtain ⟨_, -, h⟩ := bind_eq_ok.mp h
    cases h
    exact ⟨rfl, rfl⟩
  | index _ _ _ | binary _ _ _ _ | quantify _ _ _ _ _ =>
    simp only [expandMacros, bind_eq_ok] at h
    obtain ⟨_, -, _, -, h⟩ := h
    cases h
    exact ⟨rfl, rfl⟩
  | collect _ _ _ _ _ | conditional _ _ _ _ =>
    simp only [expandMacros, bind_eq_ok] at h
    obtain ⟨_, -, _, -, _, -, h⟩ := h
    cases h
    exact ⟨rfl, rfl⟩

/-! ## Parts -/

/-- The tree is expanded to another. -/
def ExpandsTo (e t : Expr) : Prop := e.expandMacros = .ok t

theorem expandOptional_parts {e t : Option Expr} (h : expandOptional e = .ok t) :
    List.Forall₂ ExpandsTo e.toList t.toList := by
  cases e with
  | none =>
    cases h
    exact .nil
  | some e =>
    obtain ⟨t, ht, h⟩ := bind_eq_ok.mp h
    cases h
    exact .cons ht .nil

theorem expandItems_parts {es ts : List Expr} (h : expandItems es = .ok ts) :
    List.Forall₂ ExpandsTo es ts := by
  induction es generalizing ts with
  | nil =>
    cases h
    exact .nil
  | cons e rest ih =>
    simp only [expandItems, bind_eq_ok] at h
    obtain ⟨t, ht, rest', hrest, h⟩ := h
    cases h
    exact .cons ht (ih hrest)

theorem expandEntries_parts {es ts : List (Expr × Expr)} (h : expandEntries es = .ok ts) :
    List.Forall₂ ExpandsTo (es.flatMap fun entry => [entry.1, entry.2])
      (ts.flatMap fun entry => [entry.1, entry.2]) := by
  induction es generalizing ts with
  | nil =>
    cases h
    exact .nil
  | cons entry rest ih =>
    simp only [expandEntries, bind_eq_ok] at h
    obtain ⟨key', hkey, t, ht, rest', hrest, h⟩ := h
    cases h
    exact .cons hkey (.cons ht (ih hrest))

/-- The parts of a tree are expanded, and then the call that it is, if it is one. -/
structure Expansion (e u t : Expr) : Prop where
  span : u.span = e.span
  parts : List.Forall₂ ExpandsTo e.parts u.parts
  called : u = t ∨ ∃ s target function args,
    u = call s target function args ∧ CallTree s target function args t

theorem expandMacros_parts {e t : Expr} (h : e.expandMacros = .ok t) : ∃ u, Expansion e u t := by
  have hself (hspan : t.span = e.span) (hparts : List.Forall₂ ExpandsTo e.parts t.parts) :
      ∃ u, Expansion e u t := ⟨t, hspan, hparts, .inl rfl⟩
  cases e with
  | literal _ _ | ident _ _ =>
    cases h
    exact hself rfl .nil
  | list _ items =>
    obtain ⟨items', hitems, h⟩ := bind_eq_ok.mp h
    cases h
    exact hself rfl (expandItems_parts hitems)
  | dict _ entries =>
    obtain ⟨entries', hentries, h⟩ := bind_eq_ok.mp h
    cases h
    exact hself rfl (expandEntries_parts hentries)
  | select _ operand _ | has _ operand _ | unary _ _ operand =>
    obtain ⟨operand', hoperand, h⟩ := bind_eq_ok.mp h
    cases h
    exact hself rfl (.cons hoperand .nil)
  | index _ left right | binary _ _ left right | quantify _ _ left _ right =>
    simp only [expandMacros, bind_eq_ok] at h
    obtain ⟨left', hleft, right', hright, h⟩ := h
    cases h
    exact hself rfl (.cons hleft (.cons hright .nil))
  | call s target function args =>
    simp only [expandMacros, bind_eq_ok] at h
    obtain ⟨target', htarget, args', hargs, h⟩ := h
    exact ⟨call s target' function args', rfl,
      List.rel_append (expandOptional_parts htarget) (expandItems_parts hargs),
      .inr ⟨s, target', function, args', rfl, ofCall_tree h⟩⟩
  | collect _ range _ test image =>
    simp only [expandMacros, bind_eq_ok] at h
    obtain ⟨range', hrange, test', htest, image', himage, h⟩ := h
    cases h
    have himage : List.Forall₂ ExpandsTo [image] [image'] := .cons himage .nil
    exact hself rfl (.cons hrange (List.rel_append (expandOptional_parts htest) himage))
  | conditional _ condition yes no =>
    simp only [expandMacros, bind_eq_ok] at h
    obtain ⟨condition', hcondition, yes', hyes, no', hno, h⟩ := h
    cases h
    exact hself rfl (.cons hcondition (.cons hyes (.cons hno .nil)))

/-- What stands in what a call stands for stands in the call. -/
theorem CallTree.nodes_subset {span : Span} {target : Option Expr} {function : String}
    {args : List Expr} {t : Expr} (h : CallTree span target function args t) :
    t.parts.flatMap nodes ⊆ (call span target function args).parts.flatMap nodes := by
  cases h with
  | presence => simp [parts, nodes]
  | function _ | method _ => exact List.Subset.refl _
  | loop _ hloop => cases hloop <;> simp [parts, nodes]

theorem Expansion.nodes_subset {e u t : Expr} (h : Expansion e u t) :
    t.parts.flatMap nodes ⊆ u.parts.flatMap nodes := by
  rcases h.called with rfl | ⟨s, target, function, args, rfl, hcall⟩
  · exact List.Subset.refl _
  · exact hcall.nodes_subset

/-- The operand of an operator in a call stands in what the call stands for. -/
theorem CallTree.unary_mem {span : Span} {target : Option Expr} {function : String}
    {args : List Expr} {t : Expr} (h : CallTree span target function args t) {s : Span}
    {op : UnaryOp} {operand : Expr}
    (hn : unary s op operand ∈ (call span target function args).parts.flatMap nodes) :
    unary s op operand ∈ t.parts.flatMap nodes := by
  cases h with
  | presence => simpa [parts, nodes] using hn
  | function _ | method _ => exact hn
  | loop _ hloop => cases hloop <;> simpa [parts, nodes] using hn

/-- A node of an expanded tree is what some node of the tree is expanded to. -/
theorem expandMacros_nodes {e t : Expr} (h : e.expandMacros = .ok t) {n : Expr}
    (hn : n ∈ t.nodes) : ∃ m ∈ e.nodes, m.expandMacros = .ok n := by
  induction e using parts_induction generalizing t with
  | ofParts e ih =>
    rw [nodes_eq, List.mem_cons] at hn
    rcases hn with rfl | hn
    · exact ⟨e, e.self_mem_nodes, h⟩
    obtain ⟨u, hu⟩ := expandMacros_parts h
    obtain ⟨part', hpart', hn⟩ := List.mem_flatMap.mp (hu.nodes_subset hn)
    obtain ⟨part, hpart, hexpands⟩ := exists_left_of_forall₂ hu.parts hpart'
    obtain ⟨m, hm, hmn⟩ := ih part hpart hexpands hn
    exact ⟨m, nodes_subset_of_part hpart hm, hmn⟩

/-- Prefix operators stay. -/
theorem unary_mem_expandMacros {e t : Expr} (h : e.expandMacros = .ok t) {s : Span} {op : UnaryOp}
    {operand : Expr} (hn : unary s op operand ∈ e.nodes) :
    ∃ operand', operand.expandMacros = .ok operand' ∧ unary s op operand' ∈ t.nodes := by
  induction e using parts_induction generalizing t with
  | ofParts e ih =>
    rw [nodes_eq, List.mem_cons, List.mem_flatMap] at hn
    rcases hn with rfl | ⟨part, hpart, hn⟩
    · obtain ⟨operand', hoperand, h⟩ := bind_eq_ok.mp h
      cases h
      exact ⟨operand', hoperand, self_mem_nodes _⟩
    obtain ⟨u, hu⟩ := expandMacros_parts h
    obtain ⟨part', hpart', hexpands⟩ := exists_right_of_forall₂ hu.parts hpart
    obtain ⟨operand', hoperand, hn⟩ := ih part hpart hexpands hn
    refine ⟨operand', hoperand, ?_⟩
    have hinside : unary s op operand' ∈ u.parts.flatMap nodes :=
      List.mem_flatMap.mpr ⟨part', hpart', hn⟩
    rw [nodes_eq]
    rcases hu.called with rfl | ⟨_, _, _, _, rfl, hcall⟩
    · exact List.mem_cons_of_mem _ hinside
    · exact List.mem_cons_of_mem _ (hcall.unary_mem hinside)

/-! ## Calls that are not formed as they must be -/

section Error

variable {d : Diagnostic}

theorem expandOptional_error {e : Option Expr} (h : expandOptional e = .error d) :
    ∃ part ∈ e.toList, part.expandMacros = .error d := by
  cases e with
  | none => cases h
  | some e =>
    obtain h | ⟨_, -, h⟩ := bind_eq_error.mp h
    · exact ⟨e, List.mem_singleton.mpr rfl, h⟩
    · cases h

theorem expandItems_error {es : List Expr} (h : expandItems es = .error d) :
    ∃ part ∈ es, part.expandMacros = .error d := by
  induction es with
  | nil => cases h
  | cons e rest ih =>
    simp only [expandItems, bind_eq_error] at h
    obtain h | ⟨_, -, h | ⟨_, -, h⟩⟩ := h
    · exact ⟨e, List.mem_cons_self, h⟩
    · exact (ih h).imp fun _ => And.imp_left (List.mem_cons_of_mem e)
    · cases h

theorem expandEntries_error {es : List (Expr × Expr)} (h : expandEntries es = .error d) :
    ∃ part ∈ es.flatMap fun entry => [entry.1, entry.2], part.expandMacros = .error d := by
  induction es with
  | nil => cases h
  | cons entry rest ih =>
    simp only [expandEntries, bind_eq_error] at h
    obtain h | ⟨_, -, h | ⟨_, -, h | ⟨_, -, h⟩⟩⟩ := h
    · exact ⟨entry.1, by simp, h⟩
    · exact ⟨entry.2, by simp, h⟩
    · exact (ih h).imp fun _ => And.imp_left (List.mem_append_right _)
    · cases h

theorem loopName_error {word : LoopWord} {e : Expr} (h : loopName word e = .error d) :
    e.span = d.span := by
  cases e <;> cases h <;> rfl

/-- What is wrong with a call is wrong with the whole of it or with one of its arguments. -/
theorem ofCall_error {s : Span} {target : Option Expr} {function : String} {args : List Expr}
    (h : ofCall s target function args = .error d) :
    d.span = s ∨ ∃ arg ∈ args, arg.span = d.span := by
  have hvariable {word : LoopWord} {e : Expr} {rest : List Expr} {f : String → Expr}
      (hloop : (loopName word e >>= fun name => .ok (f name)) = .error d) :
      ∃ arg ∈ e :: rest, arg.span = d.span := by
    obtain hname | ⟨_, -, hok⟩ := bind_eq_error.mp hloop
    · exact ⟨e, List.mem_cons_self, loopName_error hname⟩
    · cases hok
  unfold ofCall at h
  split at h
  · split at h
    · split at h <;> cases h
      exact .inl rfl
    · cases h
  · split at h
    · unfold ofLoop at h
      split at h
      · exact .inr (hvariable h)
      · exact .inr (hvariable h)
      · exact .inr (hvariable h)
      · cases h
        exact .inl rfl
    · cases h

/-- What is wrong is wrong with some node of the tree. -/
theorem expandMacros_error {e : Expr} (h : e.expandMacros = .error d) :
    ∃ n ∈ e.nodes, n.span = d.span := by
  induction e using parts_induction with
  | ofParts e ih =>
    have hinside (hpart : ∃ part ∈ e.parts, part.expandMacros = .error d) :
        ∃ n ∈ e.nodes, n.span = d.span := by
      obtain ⟨part, hpart, herror⟩ := hpart
      obtain ⟨n, hn, hspan⟩ := ih part hpart herror
      exact ⟨n, nodes_subset_of_part hpart hn, hspan⟩
    cases e with
    | literal _ _ | ident _ _ => cases h
    | list _ items =>
      obtain h | ⟨_, -, h⟩ := bind_eq_error.mp h
      · exact hinside (expandItems_error h)
      · cases h
    | dict _ entries =>
      obtain h | ⟨_, -, h⟩ := bind_eq_error.mp h
      · exact hinside (expandEntries_error h)
      · cases h
    | select _ operand _ | has _ operand _ | unary _ _ operand =>
      obtain h | ⟨_, -, h⟩ := bind_eq_error.mp h
      · exact hinside ⟨operand, by simp [parts], h⟩
      · cases h
    | index _ left right | binary _ _ left right | quantify _ _ left _ right =>
      simp only [expandMacros, bind_eq_error] at h
      obtain h | ⟨_, -, h | ⟨_, -, h⟩⟩ := h
      · exact hinside ⟨left, by simp [parts], h⟩
      · exact hinside ⟨right, by simp [parts], h⟩
      · cases h
    | collect _ range _ test image =>
      simp only [expandMacros, bind_eq_error] at h
      obtain h | ⟨_, -, h | ⟨_, -, h | ⟨_, -, h⟩⟩⟩ := h
      · exact hinside ⟨range, by simp [parts], h⟩
      · obtain ⟨part, hpart, herror⟩ := expandOptional_error h
        exact hinside ⟨part, by simp_all [parts], herror⟩
      · exact hinside ⟨image, by simp [parts], h⟩
      · cases h
    | conditional _ condition yes no =>
      simp only [expandMacros, bind_eq_error] at h
      obtain h | ⟨_, -, h | ⟨_, -, h | ⟨_, -, h⟩⟩⟩ := h
      · exact hinside ⟨condition, by simp [parts], h⟩
      · exact hinside ⟨yes, by simp [parts], h⟩
      · exact hinside ⟨no, by simp [parts], h⟩
      · cases h
    | call s target function args =>
      simp only [expandMacros, bind_eq_error] at h
      obtain h | ⟨target', -, h | ⟨args', hargs, h⟩⟩ := h
      · obtain ⟨part, hpart, herror⟩ := expandOptional_error h
        exact hinside ⟨part, List.mem_append_left _ hpart, herror⟩
      · obtain ⟨part, hpart, herror⟩ := expandItems_error h
        exact hinside ⟨part, List.mem_append_right _ hpart, herror⟩
      · obtain hcall | ⟨arg', harg', hspan⟩ := ofCall_error h
        · exact ⟨_, self_mem_nodes _, hcall.symm⟩
        · -- The argument is expanded, and stands where it stood.
          obtain ⟨arg, harg, hexpands⟩ :=
            exists_left_of_forall₂ (expandItems_parts hargs) harg'
          refine ⟨arg, nodes_subset_of_part (List.mem_append_right _ harg) (self_mem_nodes arg), ?_⟩
          rw [← hspan]
          exact (expandMacros_span hexpands).1.symm

end Error

/-! ## Calls written back -/

mutual

/-- The tree of calls that is expanded to this one, without places. -/
def written : Expr → Expr
  | literal _ value => literal default value
  | list _ items => list default (writtenItems items)
  | dict _ entries => dict default (writtenEntries entries)
  | ident _ name => ident default name
  | select _ operand field => select default operand.written field
  | index _ operand i => index default operand.written i.written
  | call _ target function args =>
    call default (writtenOptional target) function (writtenItems args)
  | has _ operand field => call default none "has" [select default operand.written field]
  | quantify _ q range name test =>
    call default (some range.written) (LoopWord.quantifier q).name
      [ident default name, test.written]
  | collect _ range name test image =>
    call default (some range.written) LoopWord.map.name
      (ident default name :: ((writtenOptional test).toList ++ [image.written]))
  | conditional _ condition yes no =>
    conditional default condition.written yes.written no.written
  | binary _ op left right => binary default op left.written right.written
  | unary _ op operand => unary default op operand.written

def writtenOptional : Option Expr → Option Expr
  | none => none
  | some e => some e.written

def writtenItems : List Expr → List Expr
  | [] => []
  | e :: rest => e.written :: writtenItems rest

def writtenEntries : List (Expr × Expr) → List (Expr × Expr)
  | [] => []
  | (key, e) :: rest => (key.written, e.written) :: writtenEntries rest

end

/-- The tree of a loop as a call. -/
theorem expandMacros_loop {word : LoopWord} {range range' : Expr} {args args' : List Expr}
    (hrange : range.expandMacros = .ok range') (hargs : expandItems args = .ok args') :
    (call default (some range) word.name args).expandMacros = ofLoop default word range' args' := by
  simp only [expandMacros, expandOptional, hrange, hargs, ok_bind, pure_eq_ok, ofCall,
    LoopWord.ofName?_name]

/-- A loop written back as a call is the same loop. -/
theorem LoopTree.expandMacros_written {span : Span} {word : LoopWord} {range : Expr}
    {args : List Expr} {t : Expr} (h : LoopTree span word range args t)
    (hrange : range.written.expandMacros = .ok range.bare)
    (hargs : expandItems (writtenItems args) = .ok (bareItems args)) :
    t.written.expandMacros = .ok t.bare := by
  cases h with
  | image => exact expandMacros_loop hrange hargs
  | testedImage => exact expandMacros_loop hrange hargs
  | test => exact expandMacros_loop hrange hargs

/-- What a call stands for, written back as a call. -/
theorem CallTree.expandMacros_written {span : Span} {target : Option Expr} {function : String}
    {args : List Expr} {t : Expr} (h : CallTree span target function args t)
    (htarget : expandOptional (writtenOptional target) = .ok (bareOptional target))
    (hargs : expandItems (writtenItems args) = .ok (bareItems args)) :
    t.written.expandMacros = .ok t.bare := by
  cases h with
  | @presence s operand field =>
    have hselect : expandItems [select default operand.written field] =
        .ok [select default operand.bare field] := hargs
    simp only [written, expandMacros, expandOptional, hselect, ok_bind, ofCall, ↓reduceIte, bare]
  | function hhas =>
    simp only [written, expandMacros, htarget, hargs, ok_bind, ofCall, bareOptional, hhas,
      ↓reduceIte, bare]
  | loop _ hloop =>
    obtain ⟨range', hrange, hsome⟩ := bind_eq_ok.mp htarget
    cases hsome
    exact hloop.expandMacros_written hrange hargs
  | method hword =>
    simp only [written, expandMacros, htarget, hargs, ok_bind, ofCall, bareOptional, hword, bare]

mutual

/-- **What a tree is expanded to, written back as calls, is expanded to it again.** -/
theorem expandMacros_written {e t : Expr} (h : e.expandMacros = .ok t) :
    t.written.expandMacros = .ok t.bare := by
  match e with
  | literal _ _ | ident _ _ =>
    cases h
    rfl
  | list _ items =>
    obtain ⟨items', hitems, h⟩ := bind_eq_ok.mp h
    cases h
    simp only [written, expandMacros, expandItems_written hitems, ok_bind, pure_eq_ok, bare]
  | dict _ entries =>
    obtain ⟨entries', hentries, h⟩ := bind_eq_ok.mp h
    cases h
    simp only [written, expandMacros, expandEntries_written hentries, ok_bind, pure_eq_ok, bare]
  | select _ operand _ | unary _ _ operand =>
    obtain ⟨operand', hoperand, h⟩ := bind_eq_ok.mp h
    cases h
    simp only [written, expandMacros, expandMacros_written hoperand, ok_bind, pure_eq_ok, bare]
  | has _ operand _ =>
    obtain ⟨operand', hoperand, h⟩ := bind_eq_ok.mp h
    cases h
    simp only [written, expandMacros, expandOptional, expandItems, expandMacros_written hoperand,
      ok_bind, pure_eq_ok, ofCall, ↓reduceIte, bare]
  | index _ left right | binary _ _ left right =>
    simp only [expandMacros, bind_eq_ok] at h
    obtain ⟨left', hleft, right', hright, h⟩ := h
    cases h
    simp only [written, expandMacros, expandMacros_written hleft, expandMacros_written hright,
      ok_bind, pure_eq_ok, bare]
  | call span target function args =>
    simp only [expandMacros, bind_eq_ok] at h
    obtain ⟨target', htarget, args', hargs, h⟩ := h
    exact (ofCall_tree h).expandMacros_written (expandOptional_written htarget)
      (expandItems_written hargs)
  | quantify _ q range name test =>
    simp only [expandMacros, bind_eq_ok] at h
    obtain ⟨range', hrange, test', htest, h⟩ := h
    cases h
    have hargs : expandItems [ident default name, test'.written] =
        .ok [ident default name, test'.bare] := by
      simp only [expandItems, expandMacros, expandMacros_written htest, ok_bind, pure_eq_ok]
    exact expandMacros_loop (expandMacros_written hrange) hargs
  | collect _ range name test image =>
    simp only [expandMacros, bind_eq_ok] at h
    obtain ⟨range', hrange, test', htest, image', himage, h⟩ := h
    cases h
    have hwritten := expandOptional_written htest
    have himage' := expandMacros_written himage
    cases test' with
    | none =>
      have hargs : expandItems [ident default name, image'.written] =
          .ok [ident default name, image'.bare] := by
        simp only [expandItems, expandMacros, himage', ok_bind, pure_eq_ok]
      exact expandMacros_loop (expandMacros_written hrange) hargs
    | some test' =>
      obtain ⟨_, htest', hsome⟩ := bind_eq_ok.mp hwritten
      cases hsome
      have hargs : expandItems [ident default name, test'.written, image'.written] =
          .ok [ident default name, test'.bare, image'.bare] := by
        simp only [expandItems, expandMacros, htest', himage', ok_bind, pure_eq_ok]
      exact expandMacros_loop (expandMacros_written hrange) hargs
  | conditional _ condition yes no =>
    simp only [expandMacros, bind_eq_ok] at h
    obtain ⟨condition', hcondition, yes', hyes, no', hno, h⟩ := h
    cases h
    simp only [written, expandMacros, expandMacros_written hcondition, expandMacros_written hyes,
      expandMacros_written hno, ok_bind, pure_eq_ok, bare]

theorem expandOptional_written {e t : Option Expr} (h : expandOptional e = .ok t) :
    expandOptional (writtenOptional t) = .ok (bareOptional t) := by
  match e with
  | none =>
    cases h
    rfl
  | some e =>
    obtain ⟨t', ht, h⟩ := bind_eq_ok.mp h
    cases h
    simp only [writtenOptional, expandOptional, expandMacros_written ht, ok_bind, pure_eq_ok,
      bareOptional]

theorem expandItems_written {es ts : List Expr} (h : expandItems es = .ok ts) :
    expandItems (writtenItems ts) = .ok (bareItems ts) := by
  match es with
  | [] =>
    cases h
    rfl
  | e :: rest =>
    simp only [expandItems, bind_eq_ok] at h
    obtain ⟨t, ht, others, hothers, h⟩ := h
    cases h
    simp only [writtenItems, expandItems, expandMacros_written ht, expandItems_written hothers,
      ok_bind, pure_eq_ok, bareItems]

theorem expandEntries_written {es ts : List (Expr × Expr)} (h : expandEntries es = .ok ts) :
    expandEntries (writtenEntries ts) = .ok (bareEntries ts) := by
  match es with
  | [] =>
    cases h
    rfl
  | (key, e) :: rest =>
    simp only [expandEntries, bind_eq_ok] at h
    obtain ⟨key', hkey, e', he, others, hothers, h⟩ := h
    cases h
    simp only [writtenEntries, expandEntries, expandMacros_written hkey, expandMacros_written he,
      expandEntries_written hothers, ok_bind, pure_eq_ok, bareEntries]

end

end Expr

end JsonTemplate
