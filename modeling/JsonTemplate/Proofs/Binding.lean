/-
The variables of loops. A loop binds its variable in its test and its image, not in its range, and
an inner loop with the same variable hides it there. So the name does not matter: any name that
does not occur in the expression can be put for the variable of one of its loops
(`same_renameAt`).
-/
import JsonTemplate.Proofs.Names
import JsonTemplate.Proofs.Resolution

namespace JsonTemplate

namespace Expr

/-! ## Names that occur -/

/-- The name an expression stands for, or the variable of a loop. -/
def ownNames : Expr → List String
  | ident _ name | quantify _ _ _ name _ | collect _ _ name _ _ => [name]
  | _ => []

/-- The names that occur in an expression, free or bound. -/
def names (e : Expr) : List String := e.nodes.flatMap ownNames

theorem names_eq (e : Expr) : e.names = e.ownNames ++ e.parts.flatMap names := by
  rw [names, nodes_eq, List.flatMap_cons, List.flatMap_assoc]
  rfl

/-- A name that does not occur is not the expression's own and does not occur in its parts. -/
theorem not_mem_names {e : Expr} {y : String} :
    y ∉ e.names ↔ y ∉ e.ownNames ∧ ∀ p ∈ e.parts, y ∉ p.names := by
  rw [names_eq]
  simp

mutual

theorem mem_names_of_mem_free {x : String} : ∀ {e : Expr}, x ∈ e.free → x ∈ e.names
  | literal _ _, h => by cases h
  | list _ items, h => by
    rw [names_eq]
    simpa [ownNames, parts] using mem_names_of_mem_freeItems h
  | dict _ entries, h => by
    rw [names_eq]
    exact mem_names_of_mem_freeEntries h
  | ident _ name, h => by simpa [names_eq, ownNames, parts, free] using h
  | select _ operand _, h | has _ operand _, h | unary _ _ operand, h => by
    have hmem : x ∈ operand.names := mem_names_of_mem_free h
    rw [names_eq]
    simpa [ownNames, parts] using hmem
  | index _ left right, h | binary _ _ left right, h => by
    rw [names_eq]
    simp only [free, List.mem_append] at h
    simpa [ownNames, parts] using h.imp mem_names_of_mem_free mem_names_of_mem_free
  | call _ target _ args, h => by
    rw [names_eq]
    simp only [free, List.mem_append] at h
    simpa [ownNames, parts, or_and_right, exists_or] using
      h.imp mem_names_of_mem_freeOptional mem_names_of_mem_freeItems
  | quantify _ _ range name test, h => by
    rw [names_eq]
    simp only [free, List.mem_append, List.mem_filter] at h
    simpa [ownNames, parts] using
      Or.inr (h.imp mem_names_of_mem_free fun h => mem_names_of_mem_free h.1)
  | collect _ range name test image, h => by
    rw [names_eq]
    simp only [free, List.mem_append, List.mem_filter] at h
    simpa [ownNames, parts, or_and_right, exists_or] using
      Or.inr (h.imp mem_names_of_mem_free fun h =>
        h.1.imp mem_names_of_mem_freeOptional mem_names_of_mem_free)
  | conditional _ condition yes no, h => by
    rw [names_eq]
    simp only [free, List.mem_append, or_assoc] at h
    simpa [ownNames, parts] using
      h.imp mem_names_of_mem_free (·.imp mem_names_of_mem_free mem_names_of_mem_free)

theorem mem_names_of_mem_freeOptional {x : String} : ∀ {e : Option Expr},
    x ∈ freeOptional e → ∃ p, e = some p ∧ x ∈ p.names
  | none, h => by cases h
  | some e, h => ⟨e, rfl, mem_names_of_mem_free h⟩

theorem mem_names_of_mem_freeItems {x : String} : ∀ {items : List Expr},
    x ∈ freeItems items → ∃ p ∈ items, x ∈ p.names
  | [], h => by cases h
  | e :: rest, h => by
    rw [freeItems, List.mem_append] at h
    simpa using h.imp mem_names_of_mem_free mem_names_of_mem_freeItems

theorem mem_names_of_mem_freeEntries {x : String} : ∀ {entries : List (Expr × Expr)},
    x ∈ freeEntries entries →
      x ∈ (entries.flatMap fun entry => [entry.1, entry.2]).flatMap names
  | [], h => by cases h
  | (k, e) :: rest, h => by
    rw [freeEntries, List.mem_append, List.mem_append] at h
    simp only [List.flatMap_cons, List.flatMap_append, List.mem_append, List.flatMap_nil,
      List.not_mem_nil, or_false]
    exact h.imp (·.imp mem_names_of_mem_free mem_names_of_mem_free) mem_names_of_mem_freeEntries

end

/-! ## Renaming the free occurrences of a name -/

mutual

/-- Puts `y` for `x` where it occurs free. -/
def rename (x y : String) : Expr → Expr
  | literal span value => literal span value
  | list span items => list span (renameItems x y items)
  | dict span entries => dict span (renameEntries x y entries)
  | ident span name => ident span (if name = x then y else name)
  | select span operand field => select span (operand.rename x y) field
  | index span operand i => index span (operand.rename x y) (i.rename x y)
  | call span target function args =>
    call span (renameOptional x y target) function (renameItems x y args)
  | has span operand field => has span (operand.rename x y) field
  | quantify span q range name test =>
    quantify span q (range.rename x y) name (if name = x then test else test.rename x y)
  | collect span range name test image =>
    collect span (range.rename x y) name (if name = x then test else renameOptional x y test)
      (if name = x then image else image.rename x y)
  | conditional span condition yes no =>
    conditional span (condition.rename x y) (yes.rename x y) (no.rename x y)
  | binary span op left right => binary span op (left.rename x y) (right.rename x y)
  | unary span op operand => unary span op (operand.rename x y)

def renameOptional (x y : String) : Option Expr → Option Expr
  | none => none
  | some e => some (e.rename x y)

def renameItems (x y : String) : List Expr → List Expr
  | [] => []
  | e :: rest => e.rename x y :: renameItems x y rest

def renameEntries (x y : String) : List (Expr × Expr) → List (Expr × Expr)
  | [] => []
  | (key, e) :: rest => (key.rename x y, e.rename x y) :: renameEntries x y rest

end

theorem span_rename (x y : String) (e : Expr) : (e.rename x y).span = e.span := by
  cases e <;> rfl

/-- The second context gives `y` the value that the first gives `x`, and the other names what it
gives them. -/
structure Carried (x y : String) (context context' : Context) : Prop where
  carried : ∃ value, context x = some value ∧ context' y = some value
  other : ∀ z, z ≠ x → z ≠ y → context' z = context z

theorem carried_bind (x y : String) (context : Context) (value : Value) :
    Carried x y (context.bind x value) (context.bind y value) where
  carried := ⟨value, by simp [Context.bind], by simp [Context.bind]⟩
  other z hx hy := by simp [Context.bind, hx, hy]

section Carried

variable {x y : String} {context context' : Context}

theorem Carried.bind (h : Carried x y context context') {name : String} (hx : name ≠ x)
    (hy : name ≠ y) (value : Value) :
    Carried x y (context.bind name value) (context'.bind name value) where
  carried := by simpa [Context.bind, hx.symm, hy.symm] using h.carried
  other z hzx hzy := by simp [Context.bind, h.other z hzx hzy]

/-- Inside a loop over `x` itself nothing is carried, and `y` does not occur. -/
theorem Carried.alike_bind (h : Carried x y context context') (env : Environment) (value : Value)
    {calls free : List String} (hy : y ∉ free) :
    Alike Eq env env (context'.bind x value) (context.bind x value) calls free where
  child a b part hab := by rw [hab]
  call _ _ a b hab _ _ := by rw [hab]
  name z hz := by
    have hzy : z ≠ y := fun heq => hy (heq ▸ hz)
    by_cases hzx : z = x
    · simp [Context.bind, hzx]
    · simp [Context.bind, hzx, h.other z hzx hzy]

end Carried

section Eval

variable {env : Environment} {x y : String}

theorem Carried.eval_bind {context context' : Context} (h : Carried x y context context') {e : Expr}
    (hy : y ∉ e.names) (origin : Origin) (value : Value) :
    e.eval env origin (context'.bind x value) = e.eval env origin (context.bind x value) :=
  eval_congr e rfl (h.alike_bind env value fun hfree => hy (mem_names_of_mem_free hfree))

theorem Carried.evalTest_bind {context context' : Context} (h : Carried x y context context')
    {test : Option Expr} (hy : ∀ e ∈ test, y ∉ e.names) (origin : Origin) (value : Value) :
    evalTest env test origin (context'.bind x value) =
      evalTest env test origin (context.bind x value) := by
  cases test with
  | none => rfl
  | some e => rw [evalTest, evalTest, h.eval_bind (hy e rfl)]

mutual

/-- Where `y` stands for what `x` stood for, an expression without `y` may have it put for `x`. -/
theorem eval_rename : ∀ {e : Expr}, y ∉ e.names → ∀ {context context' : Context},
    Carried x y context context' → ∀ origin,
      (e.rename x y).eval env origin context' = e.eval env origin context
  | literal _ _, _, _, _, _, _ => rfl
  | list _ items, hy, _, _, h, origin => by
    have hparts : ∀ p ∈ items, y ∉ p.names := (not_mem_names.mp hy).2
    rw [rename, eval, eval, evalItems_rename hparts h]
  | dict _ entries, hy, _, _, h, origin => by
    have hparts : ∀ key e, (key, e) ∈ entries → y ∉ key.names ∧ y ∉ e.names := fun key e hmem =>
      have hpart := (not_mem_names.mp hy).2
      ⟨hpart key (List.mem_flatMap.mpr ⟨_, hmem, by simp⟩),
        hpart e (List.mem_flatMap.mpr ⟨_, hmem, by simp⟩)⟩
    rw [rename, eval, eval, evalEntries_rename hparts h]
  | ident _ name, hy, context, context', h, origin => by
    rw [rename, eval, eval, Context.resolve, Context.resolve]
    by_cases hx : name = x
    · obtain ⟨value, hvalue, hvalue'⟩ := h.carried
      rw [if_pos hx, hx, hvalue, hvalue']
    · rw [if_neg hx, h.other name hx fun heq => (not_mem_names.mp hy).1 (by simp [ownNames, heq])]
  | select _ operand _, hy, _, _, h, origin => by
    rw [rename, eval, eval, eval_rename ((not_mem_names.mp hy).2 operand (by simp [parts])) h]
  | index _ operand i, hy, _, _, h, origin => by
    have hparts := (not_mem_names.mp hy).2
    rw [rename, eval, eval, eval_rename (hparts operand (by simp [parts])) h,
      eval_rename (hparts i (by simp [parts])) h]
  | call _ target _ args, hy, _, _, h, origin => by
    have hparts := (not_mem_names.mp hy).2
    simp only [parts, List.mem_append, Option.mem_toList, or_imp, forall_and] at hparts
    rw [rename, eval, eval, evalOptional_rename hparts.1 h, evalItems_rename hparts.2 h]
  | has _ operand _, hy, _, _, h, origin => by
    rw [rename, eval, eval, eval_rename ((not_mem_names.mp hy).2 operand (by simp [parts])) h]
  | quantify _ _ range name test, hy, context, context', h, origin => by
    have hparts := (not_mem_names.mp hy).2
    have hname : name ≠ y := fun heq => (not_mem_names.mp hy).1 (by simp [ownNames, heq])
    have htest := hparts test (by simp [parts])
    rw [rename, eval, eval, eval_rename (hparts range (by simp [parts])) h, span_rename]
    by_cases hx : name = x
    · -- The loop binds `x` anew, so only its range has been renamed.
      subst hx
      simp only [if_pos, h.eval_bind htest]
    · simp only [if_neg hx, span_rename, eval_rename htest (h.bind hx hname _)]
  | collect _ range name test image, hy, context, context', h, origin => by
    have hparts := (not_mem_names.mp hy).2
    have hname : name ≠ y := fun heq => (not_mem_names.mp hy).1 (by simp [ownNames, heq])
    have htest : ∀ e ∈ test, y ∉ e.names := fun e he =>
      hparts e (by simp [parts, Option.mem_def.mp he])
    have himage := hparts image (by simp [parts])
    rw [rename, eval, eval, eval_rename (hparts range (by simp [parts])) h, span_rename]
    by_cases hx : name = x
    · subst hx
      simp only [if_pos, h.eval_bind himage, h.evalTest_bind htest]
    · simp only [if_neg hx, eval_rename himage (h.bind hx hname _),
        evalTest_rename htest (h.bind hx hname _)]
  | conditional _ condition yes no, hy, _, _, h, origin => by
    have hparts := (not_mem_names.mp hy).2
    rw [rename, eval, eval, eval_rename (hparts condition (by simp [parts])) h,
      eval_rename (hparts yes (by simp [parts])) h, eval_rename (hparts no (by simp [parts])) h,
      span_rename]
  | binary _ _ left right, hy, _, _, h, origin => by
    have hparts := (not_mem_names.mp hy).2
    rw [rename, eval, eval, eval_rename (hparts left (by simp [parts])) h,
      eval_rename (hparts right (by simp [parts])) h, span_rename, span_rename]
  | unary _ _ operand, hy, _, _, h, origin => by
    rw [rename, eval, eval, eval_rename ((not_mem_names.mp hy).2 operand (by simp [parts])) h]

theorem evalOptional_rename : ∀ {e : Option Expr}, (∀ p ∈ e, y ∉ p.names) →
    ∀ {context context' : Context}, Carried x y context context' → ∀ origin,
      evalOptional env (renameOptional x y e) origin context' = evalOptional env e origin context
  | none, _, _, _, _, _ => rfl
  | some e, hy, _, _, h, origin => by
    rw [renameOptional, evalOptional, evalOptional, eval_rename (hy e rfl) h]

theorem evalTest_rename : ∀ {e : Option Expr}, (∀ p ∈ e, y ∉ p.names) →
    ∀ {context context' : Context}, Carried x y context context' → ∀ origin,
      evalTest env (renameOptional x y e) origin context' = evalTest env e origin context
  | none, _, _, _, _, _ => rfl
  | some e, hy, _, _, h, origin => by
    rw [renameOptional, evalTest, evalTest, eval_rename (hy e rfl) h, span_rename]

theorem evalItems_rename : ∀ {items : List Expr}, (∀ p ∈ items, y ∉ p.names) →
    ∀ {context context' : Context}, Carried x y context context' → ∀ origin part,
      evalItems env (renameItems x y items) origin part context' =
        evalItems env items origin part context
  | [], _, _, _, _, _, _ => rfl
  | e :: rest, hy, _, _, h, origin, part => by
    rw [List.forall_mem_cons] at hy
    rw [renameItems, evalItems, evalItems, eval_rename hy.1 h, evalItems_rename hy.2 h]

theorem evalEntries_rename : ∀ {entries : List (Expr × Expr)},
    (∀ key e, (key, e) ∈ entries → y ∉ key.names ∧ y ∉ e.names) →
    ∀ {context context' : Context}, Carried x y context context' → ∀ origin part,
      evalEntries env (renameEntries x y entries) origin part context' =
        evalEntries env entries origin part context
  | [], _, _, _, _, _, _ => rfl
  | (key, e) :: rest, hy, _, _, h, origin, part => by
    have hfirst := hy key e List.mem_cons_self
    rw [renameEntries, evalEntries, evalEntries, eval_rename hfirst.1 h, eval_rename hfirst.2 h,
      evalEntries_rename (fun k e hmem => hy k e (List.mem_cons_of_mem _ hmem)) h]

end

end Eval

/-! ## Renaming the variable of a loop -/

/-- Puts `y` for the variable of a loop, and for what it binds in the test and the image. -/
def renameVariable (y : String) : Expr → Expr
  | quantify span q range name test => quantify span q range y (test.rename name y)
  | collect span range name test image =>
    collect span range y (renameOptional name y test) (image.rename name y)
  | e => e

/-- Changes the parts, each by its number; the target of a call has the number 0, the arguments
follow. -/
def mapParts (f : Nat → Expr → Expr) : Expr → Expr
  | literal span value => literal span value
  | list span items => list span (items.mapIdx f)
  | dict span entries =>
    dict span (entries.mapIdx fun n entry => (f (2 * n) entry.1, f (2 * n + 1) entry.2))
  | ident span name => ident span name
  | select span operand field => select span (f 0 operand) field
  | index span operand i => index span (f 0 operand) (f 1 i)
  | call span target function args =>
    call span (target.map (f 0)) function (args.mapIdx fun n => f (n + 1))
  | has span operand field => has span (f 0 operand) field
  | quantify span q range name test => quantify span q (f 0 range) name (f 1 test)
  | collect span range name test image =>
    collect span (f 0 range) name (test.map (f 1)) (f 2 image)
  | conditional span condition yes no => conditional span (f 0 condition) (f 1 yes) (f 2 no)
  | binary span op left right => binary span op (f 0 left) (f 1 right)
  | unary span op operand => unary span op (f 0 operand)

/-- Renames the variable of the loop that is reached by taking part after part. An expression that
is no loop is left as it is. -/
def renameAt (y : String) : List Nat → Expr → Expr
  | [] => renameVariable y
  | n :: path => mapParts fun k p => if k = n then renameAt y path p else p

/-- Two expressions that stand at the same place and have the same outcome in every setting. -/
structure Same (e e' : Expr) : Prop where
  span : e'.span = e.span
  eval : ∀ env origin context, e'.eval env origin context = e.eval env origin context

theorem same_renameVariable {y : String} {e : Expr} (hy : y ∉ e.names) :
    Same e (e.renameVariable y) := by
  cases e with
  | quantify span q range name test =>
    have htest : y ∉ test.names := (not_mem_names.mp hy).2 test (by simp [parts])
    refine ⟨rfl, fun env origin context => ?_⟩
    rw [renameVariable, eval, eval, span_rename]
    simp only [eval_rename htest (carried_bind name y context _)]
  | collect span range name test image =>
    have hparts := (not_mem_names.mp hy).2
    have htest : ∀ e ∈ test, y ∉ e.names := fun e he =>
      hparts e (by simp [parts, Option.mem_def.mp he])
    have himage : y ∉ image.names := hparts image (by simp [parts])
    refine ⟨rfl, fun env origin context => ?_⟩
    rw [renameVariable, eval, eval]
    simp only [eval_rename himage (carried_bind name y context _),
      evalTest_rename htest (carried_bind name y context _)]
  | _ => exact ⟨rfl, fun _ _ _ => rfl⟩

theorem evalItems_mapIdx {env : Environment} {origin : Origin} {context : Context} :
    ∀ {items : List Expr} {f : Nat → Expr → Expr}, (∀ n, ∀ p ∈ items, Same p (f n p)) → ∀ part,
      evalItems env (items.mapIdx f) origin part context =
        evalItems env items origin part context
  | [], _, _, _ => rfl
  | e :: rest, f, h, part => by
    have hrest : ∀ n, ∀ p ∈ rest, Same p (f (n + 1) p) := fun n p hp =>
      h (n + 1) p (List.mem_cons_of_mem _ hp)
    rw [List.mapIdx_cons, evalItems, evalItems, (h 0 e List.mem_cons_self).eval,
      evalItems_mapIdx hrest]

theorem evalEntries_mapIdx {env : Environment} {origin : Origin} {context : Context} :
    ∀ {entries : List (Expr × Expr)} {f g : Nat → Expr → Expr},
      (∀ n key e, (key, e) ∈ entries → Same key (f n key) ∧ Same e (g n e)) → ∀ part,
      evalEntries env (entries.mapIdx fun n entry => (f n entry.1, g n entry.2)) origin part
          context =
        evalEntries env entries origin part context
  | [], _, _, _, _ => rfl
  | (key, e) :: rest, f, g, h, part => by
    have hfirst := h 0 key e List.mem_cons_self
    have hrest : ∀ n k p, (k, p) ∈ rest → Same k (f (n + 1) k) ∧ Same p (g (n + 1) p) :=
      fun n k p hmem => h (n + 1) k p (List.mem_cons_of_mem _ hmem)
    rw [List.mapIdx_cons, evalEntries, evalEntries, hfirst.1.eval, hfirst.2.eval,
      evalEntries_mapIdx hrest]

/-- An expression whose parts are changed to the same is the same. -/
theorem same_mapParts {e : Expr} {f : Nat → Expr → Expr} (h : ∀ n, ∀ p ∈ e.parts, Same p (f n p)) :
    Same e (e.mapParts f) := by
  refine ⟨by cases e <;> rfl, fun env origin context => ?_⟩
  cases e with
  | literal | ident => rfl
  | list span items =>
    have hitems : ∀ n, ∀ p ∈ items, Same p (f n p) := h
    rw [mapParts, eval, eval, evalItems_mapIdx hitems]
  | dict span entries =>
    have hentries : ∀ n key e, (key, e) ∈ entries →
        Same key (f (2 * n) key) ∧ Same e (f (2 * n + 1) e) := fun n key e hmem =>
      ⟨h _ key (List.mem_flatMap.mpr ⟨_, hmem, by simp⟩),
        h _ e (List.mem_flatMap.mpr ⟨_, hmem, by simp⟩)⟩
    rw [mapParts, eval, eval, evalEntries_mapIdx hentries]
  | select span operand | has span operand | unary span op operand =>
    rw [mapParts, eval, eval, (h 0 operand (by simp [parts])).eval]
  | index span left right =>
    rw [mapParts, eval, eval, (h 0 left (by simp [parts])).eval,
      (h 1 right (by simp [parts])).eval]
  | call span target function args =>
    have hargs : ∀ n, ∀ p ∈ args, Same p (f (n + 1) p) := fun n p hp =>
      h (n + 1) p (by simp [parts, hp])
    rw [mapParts, eval, eval, evalItems_mapIdx hargs]
    cases target with
    | none => rfl
    | some e =>
      rw [Option.map_some, evalOptional, evalOptional, (h 0 e (by simp [parts])).eval]
  | quantify span q range name test =>
    have hrange := h 0 range (by simp [parts])
    have htest := h 1 test (by simp [parts])
    rw [mapParts, eval, eval, hrange.eval, hrange.span, htest.span]
    simp only [htest.eval]
  | collect span range name test image =>
    have hrange := h 0 range (by simp [parts])
    have himage := h 2 image (by simp [parts])
    have htest : ∀ place (inner : Context),
        evalTest env (test.map (f 1)) place inner = evalTest env test place inner := by
      intro place inner
      cases test with
      | none => rfl
      | some e =>
        have he := h 1 e (by simp [parts])
        rw [Option.map_some, evalTest, evalTest, he.eval, he.span]
    rw [mapParts, eval, eval, hrange.eval, hrange.span]
    simp only [himage.eval, htest]
  | conditional span condition yes no =>
    have hcondition := h 0 condition (by simp [parts])
    rw [mapParts, eval, eval, hcondition.eval, hcondition.span, (h 1 yes (by simp [parts])).eval,
      (h 2 no (by simp [parts])).eval]
  | binary span op left right =>
    have hleft := h 0 left (by simp [parts])
    have hright := h 1 right (by simp [parts])
    rw [mapParts, eval, eval, hleft.eval, hright.eval, hleft.span, hright.span]

/-- **The name of a loop's variable does not matter.** A name that does not occur in an expression
can be put for the variable of any loop in it. -/
theorem same_renameAt {y : String} : ∀ (path : List Nat) {e : Expr}, y ∉ e.names →
    Same e (e.renameAt y path)
  | [], _, hy => same_renameVariable hy
  | n :: path, e, hy => by
    refine same_mapParts fun k p hp => ?_
    split
    · exact same_renameAt path ((not_mem_names.mp hy).2 p hp)
    · exact ⟨rfl, fun _ _ _ => rfl⟩

end Expr

end JsonTemplate
