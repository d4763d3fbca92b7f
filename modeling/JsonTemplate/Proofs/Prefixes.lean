/-
Prefix operators. The tree that is read of a row of `!` and `-` before an operand, in which a
numeral takes in the minuses next to it, comes to what the operators make of the operand one at a
time, from the one next to it outwards (`eval_prefixed`). It goes through the passes before
evaluation like the operand (`expandMacros_prefixed`, `resolveTypes_prefixed`, `faults_prefixed`),
and it is a numeral exactly if the operand is one and every operator is a minus
(`literal?_prefixed`). A text with such a row in front is read as such a tree (`readAll_prefixed`).
-/
import JsonTemplate.Proofs.Compilation
import JsonTemplate.Proofs.Dispatch
import JsonTemplate.Proofs.Logic
import JsonTemplate.Proofs.Occurrences
import JsonTemplate.Proofs.Rendering
import JsonTemplate.Proofs.Scanning
import Mathlib.Logic.Function.Iterate

namespace JsonTemplate

/-! ## Operators on outcomes -/

/-- What operators make of the outcome of an operand one at a time, the last of them first. -/
def UnaryOp.applyAll (ops : List UnaryOp) (outcome : Outcome Value) : Outcome Value :=
  ops.foldr (fun op inner => do op.apply (← inner)) outcome

theorem UnaryOp.unplaced_applyAll (ops : List UnaryOp) {x y : Outcome Value}
    (h : x.unplaced = y.unplaced) : (applyAll ops x).unplaced = (applyAll ops y).unplaced := by
  induction ops with
  | nil => exact h
  | cons op ops ih => exact Outcome.unplaced_bind ih fun _ => rfl

/-- An operator looks at no object. -/
theorem UnaryOp.apply_like {R : Origin → Origin → Prop} (op : UnaryOp) {v v' : Value}
    (h : v.Like R v') : op.apply v = op.apply v' := by
  cases op <;> cases h <;> rfl

theorem UnaryOp.applyAll_like {R : Origin → Origin → Prop} {ops : List UnaryOp} (hops : ops ≠ [])
    {x y : Outcome Value} (h : Agree (Value.Like R) x y) : applyAll ops x = applyAll ops y := by
  induction ops with
  | nil => exact absurd rfl hops
  | cons op ops ih =>
    cases ops with
    | nil =>
      cases h with
      | ok hv => exact op.apply_like hv
      | error i => rfl
    | cons next ops => exact congrArg (· >>= op.apply) (ih (List.cons_ne_nil next ops))

theorem Outcome.located_bind {α β : Type} (span : Span) (x : Outcome α) (f : α → Outcome β) :
    located span (located span x >>= f) = located span (x >>= f) := by
  rcases x with (_ | ⟨cause, _ | s, beneath⟩) | a <;> rfl

namespace Expr

open Reader (applyUnary)

/-- The tree of operators before an operand; they all stand at one place. -/
def prefixed (e : Expr) (ops : List UnaryOp) (span : Span) : Expr :=
  ops.foldr (applyUnary span) e

@[simp] theorem prefixed_nil (e : Expr) (span : Span) : e.prefixed [] span = e := rfl

theorem prefixed_cons (e : Expr) (op : UnaryOp) (ops : List UnaryOp) (span : Span) :
    e.prefixed (op :: ops) span = applyUnary span op (e.prefixed ops span) := rfl

theorem bare_prefixed (e : Expr) (ops : List UnaryOp) (span : Span) :
    (e.prefixed ops span).bare = e.bare.prefixed ops default :=
  Reader.bare_foldr_applyUnary span ops e

/-! ## One operator -/

section One

variable {env : Environment} {op : UnaryOp} {e : Expr} {span : Span}

theorem literal?_eq_some {v : Literal} : e.literal? = some v ↔ ∃ place, e = literal place v := by
  cases e <;> simp [literal?]

/-- Only a minus before a numeral is no node of its own. -/
theorem applyUnary_of_ne (h : op = .neg → ∀ n, e.literal? ≠ some (.number n)) :
    applyUnary span op e = unary span op e := by
  fun_cases applyUnary span op e with
  | case1 place n => exact absurd rfl (h rfl n)
  | case2 op e hnode => rfl

theorem literal?_applyUnary {m : Binary64} :
    (applyUnary span op e).literal? = some (.number m) ↔
      op = .neg ∧ ∃ n, e.literal? = some (.number n) ∧ m = n.neg := by
  fun_cases applyUnary span op e with
  | case1 place n => simp [literal?, eq_comm]
  | case2 op e hnode =>
    simp only [literal?, reduceCtorEq, false_iff]
    rintro ⟨hop, n, hn, -⟩
    obtain ⟨place, rfl⟩ := literal?_eq_some.mp hn
    exact hnode place n hop rfl

/-- A numeral that took in a minus comes to what the minus makes of it. -/
theorem eval_applyUnary (origin : Origin) (context : Context) :
    (applyUnary span op e).eval env origin context =
      .located span (do op.apply (← e.eval env (origin.child 0) context)) := by
  fun_cases applyUnary span op e with
  | case1 place n => rfl
  | case2 op e hnode => rw [eval]

/-- No call expands to a numeral, so what took no minus in takes none in later. -/
theorem expandMacros_applyUnary :
    (applyUnary span op e).expandMacros = e.expandMacros.map (applyUnary span op) := by
  fun_cases applyUnary span op e with
  | case1 place n => rfl
  | case2 op e hnode =>
    rw [expandMacros]
    cases ht : e.expandMacros with
    | error d => rfl
    | ok t =>
      refine congrArg Except.ok (applyUnary_of_ne fun hop n hn => ?_).symm
      rw [(expandMacros_span ht).2] at hn
      obtain ⟨place, rfl⟩ := literal?_eq_some.mp hn
      exact hnode place n hop rfl

/-- The name of a type becomes a string, never a numeral. -/
theorem literal?_resolveTypes_number {bound : List String} {n : Binary64} :
    (resolveTypes env bound e).literal? = some (.number n) ↔ e.literal? = some (.number n) := by
  rw [literal?_resolveTypes]
  cases e with
  | ident span x =>
    rw [known?]
    split
    · cases env.types.get? x <;> simp [literal?]
    · simp [literal?]
  | _ => rfl

theorem resolveTypes_applyUnary (bound : List String) :
    resolveTypes env bound (applyUnary span op e) =
      applyUnary span op (resolveTypes env bound e) := by
  fun_cases applyUnary span op e with
  | case1 place n => rfl
  | case2 op e hnode =>
    refine (applyUnary_of_ne fun hop n hn => ?_).symm
    obtain ⟨place, rfl⟩ := literal?_eq_some.mp (literal?_resolveTypes_number.mp hn)
    exact hnode place n hop rfl

theorem faults_applyUnary (bound : List String) :
    faults env bound (applyUnary span op e) = faults env bound e := by
  fun_cases applyUnary span op e with
  | case1 place n => rfl
  | case2 op e hnode => rw [faults]

end One

/-! ## A row of operators -/

section Row

variable {env : Environment} (e : Expr) (ops : List UnaryOp) (span : Span)

/-- **The tree of a row of operators comes to what they make of the operand one at a time.** If one
of them takes no such value the failure is at their common place; a failure of the operand stays
where it is. -/
theorem eval_prefixed (origin : Origin) (context : Context) :
    (e.prefixed ops span).eval env origin context = .located span (UnaryOp.applyAll ops
      (e.eval env (origin.below (.replicate ops.length 0)) context)) := by
  induction ops generalizing origin with
  | nil => exact (Outcome.located_of_placed (eval_placed env e origin context) span).symm
  | cons op ops ih =>
    have hplace : (origin.child 0).below (.replicate ops.length 0) =
        origin.below (.replicate (op :: ops).length 0) := by
      rw [Origin.below_child, List.length_cons, List.replicate_succ']
    rw [prefixed_cons, eval_applyUnary, ih, Outcome.located_bind, hplace]
    rfl

theorem expandMacros_prefixed :
    (e.prefixed ops span).expandMacros = e.expandMacros.map (·.prefixed ops span) := by
  induction ops with
  | nil => cases h : e.expandMacros <;> simp [h, Except.map]
  | cons op ops ih =>
    rw [prefixed_cons, expandMacros_applyUnary, ih]
    cases e.expandMacros <;> rfl

theorem resolveTypes_prefixed (bound : List String) : resolveTypes env bound (e.prefixed ops span) =
    (resolveTypes env bound e).prefixed ops span := by
  induction ops with
  | nil => rfl
  | cons op ops ih => rw [prefixed_cons, resolveTypes_applyUnary, ih, prefixed_cons]

theorem faults_prefixed (bound : List String) :
    faults env bound (e.prefixed ops span) = faults env bound e := by
  induction ops with
  | nil => rfl
  | cons op ops ih => rw [prefixed_cons, faults_applyUnary, ih]

/-- **The tree of a row is a numeral exactly if the operand is one and all of the row are
minuses.** -/
theorem literal?_prefixed (m : Binary64) : (e.prefixed ops span).literal? = some (.number m) ↔
    (∀ op ∈ ops, op = .neg) ∧ ∃ n, e.literal? = some (.number n) ∧
      m = Binary64.neg^[ops.length] n := by
  induction ops generalizing m with
  | nil => simp
  | cons op ops ih =>
    rw [prefixed_cons, literal?_applyUnary]
    simp only [ih, List.forall_mem_cons, List.length_cons, Function.iterate_succ_apply']
    constructor
    · rintro ⟨hop, n, ⟨hops, k, hk, rfl⟩, rfl⟩
      exact ⟨⟨hop, hops⟩, k, hk, rfl⟩
    · rintro ⟨⟨hop, hops⟩, k, hk, rfl⟩
      exact ⟨hop, _, ⟨hops, k, hk, rfl⟩, rfl⟩

end Row

end Expr

/-! ## The tree and its operand -/

theorem Fresh.below {known : Origin → Prop} {origin : Origin} (h : Fresh known origin)
    (path : List Nat) : Fresh known (origin.below path) := by
  intro rest
  simpa [Origin.below] using h (rest ++ path)

theorem ValueType.mayMatch_number (type : ValueType) (n : Binary64) :
    type.mayMatch (some (.number n)) = true ↔ type = .number ∨ type = .any := by
  cases type <;> simp [mayMatch, ValueType.matches, Value.ofLiteral]

namespace Expr

/-- The tree does to the operand what the operators do, and is a numeral where they leave one. -/
structure Applies (env : Environment) (ops : List UnaryOp) (operand tree : Expr) : Prop where
  /-- It comes to what they make, one at a time, of the operand at its place below them; only the
  span of a failure may be another. -/
  eval : ∀ origin context, (tree.eval env origin context).unplaced = (UnaryOp.applyAll ops
    (operand.eval env (origin.below (.replicate ops.length 0)) context)).unplaced
  /-- If functions are pure, the operand may be evaluated at any other place. -/
  anywhere : ops ≠ [] → ∀ known context, env.Pure known context operand.calls operand.free →
    ∀ a b, Fresh known a → Fresh known b → (tree.eval env a context).unplaced =
      (UnaryOp.applyAll ops (operand.eval env b context)).unplaced
  /-- It is a numeral exactly if the operand is one and they are minuses. -/
  number : ∀ m, tree.literal? = some (.number m) ↔ (∀ op ∈ ops, op = .neg) ∧
    ∃ n, operand.literal? = some (.number n) ∧ m = Binary64.neg^[ops.length] n
  /-- The check of a call then takes it for a number. -/
  checked : (∀ op ∈ ops, op = .neg) → ∀ n, operand.literal? = some (.number n) →
    tree.describe = "number" ∧
      ∀ type : ValueType, type.mayMatch tree.literal? = true ↔ type = .number ∨ type = .any

theorem applies_of_bare {env : Environment} {ops : List UnaryOp} {operand tree : Expr}
    (h : tree.bare = operand.bare.prefixed ops default) : Applies env ops operand tree := by
  have heval : ∀ origin context, (tree.eval env origin context).unplaced = (UnaryOp.applyAll ops
      (operand.eval env (origin.below (.replicate ops.length 0)) context)).unplaced := by
    intro origin context
    rw [← eval_bare tree, h, eval_prefixed, Outcome.unplaced_located]
    exact UnaryOp.unplaced_applyAll ops (eval_bare operand _ context)
  have hnumber : ∀ m, tree.literal? = some (.number m) ↔ (∀ op ∈ ops, op = .neg) ∧
      ∃ n, operand.literal? = some (.number n) ∧ m = Binary64.neg^[ops.length] n := by
    intro m
    rw [← literal?_bare tree, h, literal?_prefixed, literal?_bare]
  refine ⟨heval, fun hops known context hpure a b ha hb => ?_, hnumber, fun hops n hn => ?_⟩
  · have hbelow : Fresh known (a.below (.replicate ops.length 0)) := ha.below _
    rw [heval, UnaryOp.applyAll_like hops
      (hpure.eval (Apart.single hbelow hb).renames (Moved.places ⟨rfl, rfl⟩))]
  · have htree := (hnumber _).mpr ⟨hops, n, hn, rfl⟩
    rw [describe, htree]
    exact ⟨rfl, fun type => type.mayMatch_number _⟩

end Expr

/-! ## Reading -/

namespace Reader

variable {ops : List UnaryOp} {O T : List Token}

theorem unaryOps_append (hO : O.map Token.form = ops.map fun op => .mark op.mark)
    (hT : ∀ op : UnaryOp, ahead T ≠ some (.mark op.mark)) : unaryOps (O ++ T) = (ops, T) := by
  induction ops generalizing O with
  | nil =>
    obtain rfl := List.map_eq_nil_iff.mp hO
    exact unaryOps_none hT
  | cons op ops ih =>
    obtain ⟨⟨form, place⟩, O, rfl, hform, hrest⟩ := List.map_eq_cons_iff.mp hO
    obtain rfl : form = .mark op.mark := hform
    rw [List.cons_append, unaryOps_cons, ih hrest]

/-- Operators and an operand are read as the operators before what is read of the operand alone. -/
theorem operand_append (sub : Reads Expr)
    (hO : O.map Token.form = ops.map fun op => .mark op.mark)
    (hT : ∀ op : UnaryOp, ahead T ≠ some (.mark op.mark)) :
    ∃ span, operand sub (O ++ T) =
      (operand sub T).map fun (e, rest) => (e.prefixed ops span, rest) := by
  have hread : ∀ tokens ops, unaryOps tokens = (ops, T) → operand sub tokens = (do
      let first ← primary sub T
      let whole ← postfixes sub first.1 none first.2 first.2
      let place := ⟨startOf tokens, whole.1.2.getD (startOf whole.2)⟩
      return (whole.1.1.prefixed ops place, whole.2)) := by
    intro tokens ops h
    rw [operand, h]
    rfl
  rw [hread _ _ (unaryOps_append hO hT), hread _ _ (unaryOps_none hT)]
  cases primary sub T with
  | error place => exact ⟨default, rfl⟩
  | ok first =>
    rw [ok_bind, ok_bind]
    cases postfixes sub first.1 none first.2 first.2 with
    | error place => exact ⟨default, rfl⟩
    | ok whole => exact ⟨_, rfl⟩

end Reader

/-! ## Texts -/

/-- A text that is one operand, with operators before it or without. -/
def IsOperand (source : String) : Prop :=
  ∃ bound e place, Reader.operand (Reader.expression bound) (Token.ofSource source) =
    .ok (e, [⟨.finish, place⟩])

theorem isOperand_of_forms (bound : Nat) {source : String}
    (h : (Reader.operand (Reader.expression bound) (Token.ofSource source)).toOption.map
      (fun result => result.2.map Token.form) = some [.finish]) : IsOperand source := by
  obtain ⟨⟨e, rest⟩, hread, hforms⟩ := Option.map_eq_some_iff.mp h
  obtain ⟨⟨form, place⟩, others, rfl, hform, hothers⟩ := List.map_eq_cons_iff.mp hforms
  obtain rfl := List.map_eq_nil_iff.mp hothers
  obtain rfl : form = .finish := hform
  exact ⟨bound, e, place, toOption_eq_some.mp hread⟩

/-- Marks of operators with any white space between them, in front of a text. -/
theorem spelling_prefixed {ops : List UnaryOp} {before : List Char}
    (h : before.filter (fun c => !Token.isGap c) = ops.map UnaryOp.mark) {L : List Lexeme}
    {text : List Char} (htext : Spelling L text) :
    Spelling (Reader.prefixed ops ++ L) (before ++ text) := by
  induction before generalizing ops with
  | nil =>
    obtain rfl := List.map_eq_nil_iff.mp h.symm
    exact htext
  | cons c before ih =>
    cases hgap : Token.isGap c with
    | true => exact .gap hgap (ih (by simpa [hgap] using h))
    | false =>
      rw [List.filter_cons_of_pos (by simp [hgap])] at h
      obtain ⟨op, others, rfl, rfl, hothers⟩ := List.map_eq_cons_iff.mp h.symm
      have hmark : op.mark ∈ marks := by cases op <;> decide
      have hfirst : Spelling (.mark op.mark :: (Reader.prefixed others ++ L))
          ([op.mark] ++ (before ++ text)) := .cons (.mark hmark) nofun (ih hothers.symm)
      exact hfirst

section Texts

variable {ops : List UnaryOp} {before : List Char} {source : String}
  (hbefore : before.filter (fun c => !Token.isGap c) = ops.map UnaryOp.mark)
  (hsource : IsOperand source)

include hbefore hsource

namespace Expr

/-- A text with operators in front is read as the operators before what the text is read as. -/
theorem readAll_prefixed :
    ∃ raw raw', Reader.readAll (Token.ofSource source) = .ok raw ∧
      Reader.readAll (Token.ofSource (String.ofList (before ++ source.toList))) = .ok raw' ∧
      raw'.bare = raw.bare.prefixed ops default := by
  obtain ⟨bound, raw, place, hraw⟩ := hsource
  obtain ⟨T, htokens, hphrased⟩ :=
    Reader.operand_phrased (Reader.expression_phrased bound) hraw
  obtain ⟨L, hT, hL⟩ := Reader.phrased_derived hphrased
  have hspelling : Spelling (Reader.prefixed ops ++ L)
      (String.ofList (before ++ source.toList)).toList := by
    rw [String.toList_ofList]
    exact spelling_prefixed hbefore (spelling_of_scan hT (derives_marks hL) htokens)
  obtain ⟨raw', hraw', hbare⟩ := readAll_ofSource_iff.mpr
    ⟨_, hspelling, (Reader.derives_prefixed ops hL).of_operand⟩
  refine ⟨raw, raw', ?_, hraw', hbare⟩
  rw [htokens]
  exact Reader.readAll_phrased (.plain (.leaf hphrased) trivial)

/-- It is parsed exactly if the text is, to the operators before the tree of the text. -/
theorem parse_prefixed :
    Option.Rel (fun t t' => t'.bare = t.bare.prefixed ops default) (parse source).toOption
      (parse (String.ofList (before ++ source.toList))).toOption := by
  obtain ⟨raw, raw', hraw, hraw', hbare⟩ := readAll_prefixed hbefore hsource
  have htrees : raw'.expandMacros.toOption.map bare =
      raw.expandMacros.toOption.map fun t => t.bare.prefixed ops default := by
    rw [← bare_expandMacros, hbare, expandMacros_prefixed, toOption_map, bare_expandMacros,
      Option.map_map]
    rfl
  simp only [parse, hraw, hraw']
  cases h : raw.expandMacros <;> cases h' : raw'.expandMacros <;> rw [h, h'] at htrees
  · exact .none
  · cases htrees
  · cases htrees
  · exact .some (Option.some.inj htrees)

end Expr

end Texts

namespace Expr

variable (env : Environment) {ops : List UnaryOp} {e e' : Expr}

theorem faults_resolveTypes_bare (e : Expr) :
    faults env [] (resolveTypes env [] e.bare) =
      (faults env [] (resolveTypes env [] e)).map (Diagnostic.respan fun _ => default) := by
  rw [bare_eq, ← respan_resolveTypes, faults_respan]

/-- Operators before a tree neither add faults nor take any away. -/
theorem faults_of_prefixed (h : e'.bare = e.bare.prefixed ops default) :
    faults env [] (resolveTypes env [] e') = [] ↔ faults env [] (resolveTypes env [] e) = [] := by
  have hsame : (faults env [] (resolveTypes env [] e')).map (Diagnostic.respan fun _ => default) =
      (faults env [] (resolveTypes env [] e)).map (Diagnostic.respan fun _ => default) := by
    rw [← faults_resolveTypes_bare, h, resolveTypes_prefixed, faults_prefixed,
      faults_resolveTypes_bare]
  rw [← List.map_eq_nil_iff, hsame, List.map_eq_nil_iff]

theorem applies_resolveTypes (h : e'.bare = e.bare.prefixed ops default) (bound : List String) :
    Applies env ops (resolveTypes env bound e) (resolveTypes env bound e') := by
  refine applies_of_bare ?_
  rw [bare_resolveTypes, h, resolveTypes_prefixed, bare_resolveTypes]

end Expr

/-- What compiles is what is parsed and has no faults. -/
theorem Environment.toOption_compile (env : Environment) (source : String) :
    (env.compile source).toOption = (Expr.parse source).toOption.bind fun e =>
      if (e.resolveTypes env []).faults env [] = [] then
        some ⟨e.resolveTypes env [], source, env⟩
      else none := by
  unfold compile
  cases Expr.parse source with
  | error d => rfl
  | ok e =>
    dsimp only [Except.toOption, Option.bind_some]
    cases (e.resolveTypes env []).faults env [] <;> rfl

/-- A text with operators in front compiles exactly if the text does, to what does the operators to
the program of the text. -/
theorem compile_prefixed (env : Environment) {ops : List UnaryOp} {before : List Char}
    {source : String} (hbefore : before.filter (fun c => !Token.isGap c) = ops.map UnaryOp.mark)
    (hsource : IsOperand source) :
    Option.Rel (fun p p' => Expr.Applies env ops p.expr p'.expr) (env.compile source).toOption
      (env.compile (String.ofList (before ++ source.toList))).toOption := by
  have hparse := Expr.parse_prefixed hbefore hsource
  rw [env.toOption_compile, env.toOption_compile]
  generalize (Expr.parse source).toOption = read,
    (Expr.parse (String.ofList (before ++ source.toList))).toOption = read' at hparse
  cases hparse with
  | none => exact .none
  | @some t t' htree =>
    have hfaults := Expr.faults_of_prefixed env htree
    rw [Option.bind_some, Option.bind_some]
    by_cases hfine : (t.resolveTypes env []).faults env [] = []
    · rw [if_pos hfine, if_pos (hfaults.mpr hfine)]
      exact .some (Expr.applies_resolveTypes env htree [])
    · rw [if_neg hfine, if_neg fun h => hfine (hfaults.mp h)]
      exact .none

theorem exists_of_rel_toOption {ε ε' α β : Type} {R : α → β → Prop} {x : Except ε α}
    {y : Except ε' β} (h : Option.Rel R x.toOption y.toOption) {a : α} (hx : x = .ok a) :
    ∃ b, y = .ok b ∧ R a b := by
  subst hx
  cases y with
  | error e => exact absurd h nofun
  | ok b =>
    obtain hab | _ := h
    exact ⟨b, rfl, hab⟩

/-! ## Main result -/

/-- **Operators before an operand are done to it one at a time, from the one next to it outwards.**
Wherever they stand, what is read of them is the tree of the operators before what is read of the
operand alone. That tree is expanded, resolved and checked like the operand, comes to what the
operators make of it, and is a numeral if they are minuses before one. So a text with operators in
front compiles exactly if the text does, to what does the operators to the program of the text. -/
theorem unary_operators_act_in_turn (ops : List UnaryOp) :
    (∀ (sub : Reader.Reads Expr) (O T : List Token),
      O.map Token.form = ops.map (fun op => .mark op.mark) →
      (∀ op : UnaryOp, Reader.ahead T ≠ some (.mark op.mark)) →
      ∃ span, Reader.operand sub (O ++ T) =
        (Reader.operand sub T).map fun (e, rest) => (e.prefixed ops span, rest)) ∧
    (∀ (e : Expr) (span : Span),
      (e.prefixed ops span).expandMacros = e.expandMacros.map (·.prefixed ops span) ∧
      ∀ (env : Environment) (bound : List String),
        ((e.prefixed ops span).resolveTypes env bound).faults env bound =
          (e.resolveTypes env bound).faults env bound ∧
        Expr.Applies env ops (e.resolveTypes env bound)
          ((e.prefixed ops span).resolveTypes env bound)) ∧
    ∀ (env : Environment) (before : List Char) (source : String),
      before.filter (fun c => !Token.isGap c) = ops.map UnaryOp.mark → IsOperand source →
      Option.Rel (fun p p' => Expr.Applies env ops p.expr p'.expr) (env.compile source).toOption
        (env.compile (String.ofList (before ++ source.toList))).toOption := by
  refine ⟨fun sub O T hO hT => Reader.operand_append sub hO hT, fun e span => ?_,
    fun env before source hbefore hsource => compile_prefixed env hbefore hsource⟩
  refine ⟨e.expandMacros_prefixed ops span, fun env bound => ⟨?_, ?_⟩⟩
  · rw [Expr.resolveTypes_prefixed, Expr.faults_prefixed]
  · exact Expr.applies_resolveTypes env (Expr.bare_prefixed e ops span) bound

/-- A row inside an expression; minuses before a numeral in brackets; and a row in which the minus
finds no number. -/
theorem unary_operators_act_in_turn_of_rows :
    ([⟨.mark '!', ⟨4, 5⟩⟩, ⟨.mark '-', ⟨5, 6⟩⟩].map Token.form =
        [UnaryOp.not, .neg].map (fun op => .mark op.mark) ∧
      ∃ span, Reader.operand (Reader.expression 1)
        [⟨.mark '!', ⟨4, 5⟩⟩, ⟨.mark '-', ⟨5, 6⟩⟩, ⟨.word "x", ⟨6, 7⟩⟩, ⟨.finish, ⟨7, 8⟩⟩] =
          .ok ((Expr.ident ⟨6, 7⟩ "x").prefixed [.not, .neg] span, [⟨.finish, ⟨7, 8⟩⟩])) ∧
    ("-- -".toList.filter (fun c => !Token.isGap c) = [.neg, .neg, .neg].map UnaryOp.mark ∧
      IsOperand "((2.5))" ∧ ∃ p p' n, Environment.standard.compile "((2.5))" = .ok p ∧
        Environment.standard.compile "-- -((2.5))" = .ok p' ∧
        p.expr.literal? = some (.number n) ∧ p'.expr.literal? = some (.number n.neg.neg.neg) ∧
        p'.expr.describe = "number") ∧
    ("! -!".toList.filter (fun c => !Token.isGap c) = [.not, .neg, .not].map UnaryOp.mark ∧
      IsOperand "flags.on" ∧ ∃ p', Environment.standard.compile "! -!flags.on" = .ok p' ∧
        ∀ origin, (p'.expr.eval Environment.standard origin
          fun _ => some (.map [("on", .bool false)])).unplaced =
            .raise (.noSuchOverload "-_" ["bool"])) := by
  have hnumeral : IsOperand "((2.5))" := isOperand_of_forms 3 (by decide +kernel)
  have hfield : IsOperand "flags.on" := isOperand_of_forms 1 (by decide +kernel)
  refine ⟨⟨rfl, ?_⟩, ⟨rfl, hnumeral, ?_⟩, rfl, hfield, ?_⟩
  · exact (unary_operators_act_in_turn [.not, .neg]).1 (Reader.expression 1)
      [⟨.mark '!', ⟨4, 5⟩⟩, ⟨.mark '-', ⟨5, 6⟩⟩] [⟨.word "x", ⟨6, 7⟩⟩, ⟨.finish, ⟨7, 8⟩⟩] rfl nofun
  · have hn : ((Environment.standard.compile "((2.5))").toOption.bind fun p => p.expr.literal?) =
        some (.number (Decimal.scan "2.5".toList).1.toBinary64) := by decide +kernel
    obtain ⟨p, hp, hn⟩ := Option.bind_eq_some_iff.mp hn
    obtain ⟨p', hp', happlies⟩ := exists_of_rel_toOption
      ((unary_operators_act_in_turn [.neg, .neg, .neg]).2.2 Environment.standard "-- -".toList
        "((2.5))" rfl hnumeral) (toOption_eq_some.mp hp)
    exact ⟨p, p', _, toOption_eq_some.mp hp, hp', hn,
      (happlies.number _).mpr ⟨by decide, _, hn, rfl⟩, (happlies.checked (by decide) _ hn).1⟩
  · have hflags : Environment.standard.compile "flags.on" =
        .ok ⟨.select ⟨0, 8⟩ (.ident ⟨0, 5⟩ "flags") "on", "flags.on", Environment.standard⟩ := rfl
    obtain ⟨p', hp', happlies⟩ := exists_of_rel_toOption
      ((unary_operators_act_in_turn [.not, .neg, .not]).2.2 Environment.standard "! -!".toList
        "flags.on" rfl hfield) hflags
    refine ⟨p', hp', fun origin => ?_⟩
    rw [happlies.eval]
    rfl

end JsonTemplate
