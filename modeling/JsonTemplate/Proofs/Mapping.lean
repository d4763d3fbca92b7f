/-
A fragment called on a list, and a loop over the list that calls it on every item: the expansions
are the same but for the places where their objects are made, so they are written alike, and the
first that fails ends both (`fragment_on_list_eq_map`).
-/
import JsonTemplate.Proofs.Dependence
import JsonTemplate.Proofs.Inlining
import JsonTemplate.Proofs.Spans

namespace JsonTemplate

open Value (Like)

/-! ## One item after the other -/

namespace FragmentCall

/-- What becomes of a fragment for every item, each at a place of its own. -/
def expansions (base : Activation) (policy : ErrorPolicy) (tree : Tree) (origin : Origin)
    (args : List Value) (part : Nat) : List Value → List (Except Failure Value)
  | [] => []
  | item :: rest =>
    tree.expand policy (base.bind "args" (.list (item :: args))).context (origin.child part) ::
      expansions base policy tree origin args (part + 1) rest

section Each

variable (base : Activation) (policy : ErrorPolicy) (tree : Tree)

/-- A call on a list gives every expansion, or fails like the first that fails. -/
theorem invokeEach_cases (origin : Origin) (args : List Value) :
    ∀ (items : List Value) (part : Nat),
    (∃ outs, expansions base policy tree origin args part items = outs.map .ok ∧
      invokeEach base policy tree origin args part items = .ok outs) ∨
    ∃ (f : Failure) (done : List Value) (rest : List (Except Failure Value)),
      expansions base policy tree origin args part items =
        done.map .ok ++ .error f :: rest ∧
      invokeEach base policy tree origin args part items = .error (.failed f)
  | [], _ => .inl ⟨[], rfl, rfl⟩
  | item :: items, part => by
    rw [expansions, invokeEach, invoke]
    cases tree.expand policy (base.bind "args" (.list (item :: args))).context
        (origin.child part) with
    | error f => exact .inr ⟨f, [], _, rfl, rfl⟩
    | ok v =>
      rcases invokeEach_cases origin args items (part + 1) with
        ⟨outs, hexpansions, heach⟩ | ⟨f, done, rest, hexpansions, heach⟩
      · refine .inl ⟨v :: outs, ?_, ?_⟩
        · rw [hexpansions, List.map_cons]
        · rw [heach]
          rfl
      · refine .inr ⟨f, v :: done, rest, ?_, ?_⟩
        · rw [hexpansions, List.map_cons, List.cons_append]
        · rw [heach]
          rfl

/-- A loop whose images agree with the expansions agrees with the call on the list. -/
theorem invokeEach_collect {P : Value → Value → Prop} {image : Loop.Step Value} (origin : Origin)
    (args : List Value) {items items' : List Value}
    (h : List.Forall₂ (fun item item' => ∀ number, Agree P
      (invoke base policy tree (origin.child number) (item :: args)) (image number item'))
      items items') (part : Nat) :
    Agree (List.Forall₂ P) (invokeEach base policy tree origin args part items)
      (Loop.collect (fun _ _ => .ok true) image part items') := by
  induction h generalizing part with
  | nil => exact .ok .nil
  | cons hitem _ ih =>
    rw [invokeEach, Loop.collect]
    exact (hitem part).bind fun _ _ hv => (ih (part + 1)).bind fun _ _ hout => .ok (.cons hv hout)

end Each

theorem mem_expansions {base : Activation} {policy : ErrorPolicy} {tree : Tree} {origin : Origin}
    {args : List Value} {x : Except Failure Value} :
    ∀ {items : List Value} {part : Nat}, x ∈ expansions base policy tree origin args part items →
      ∃ context place, tree.expand policy context place = x
  | [], _, h => by cases h
  | _ :: _, _, h => by
    rcases List.mem_cons.mp h with rfl | h
    · exact ⟨_, _, rfl⟩
    · exact mem_expansions h

/-- A call on a list with a name and at most five values is accepted. -/
theorem signature_accepts_list (name : String) (items : List Value) {values : List Value}
    (h : values.length ≤ maxArguments) :
    signature.accepts (some (.list items)) (.string name :: values) = true := by
  have harguments := all_arguments (p := fun q v => q.type.matches v)
    (fun q v hq => by rw [hq]; rfl) values
  have htakes : (⟨some .list, parameters⟩ : Overload).takes true (values.length + 1) = true := by
    have hrequired : (⟨some .list, parameters⟩ : Overload).required = 1 := rfl
    have hlength : parameters.length = maxArguments + 1 := rfl
    simp only [Overload.takes, hrequired, hlength]
    simp [h]
  have haccepts : (⟨some .list, parameters⟩ : Overload).accepts (some (.list items))
      (.string name :: values) = true := by
    simp only [Overload.accepts, Option.isSome_some, List.length_cons, htakes,
      Overload.acceptsReceiver, ValueType.matches, Bool.true_and]
    exact harguments
  rw [signature_eq, Signature.accepts]
  simp [haccepts]

end FragmentCall

/-- The failure of an expansion points into the fragment. -/
theorem Tree.expand_span {policy : ErrorPolicy} {context : Context} {t : Tree} {origin : Origin}
    {f : Failure} (h : t.expand policy context origin = .error f) : f.span.isSome := by
  rw [← failure?_eq_some, failure?_expand, firstRaised_eq_some] at h
  obtain ⟨_, leaf, _, -, houtcome, -, -⟩ := h
  exact Expr.eval_span houtcome

theorem FragmentCall.expansions_span {base : Activation} {policy : ErrorPolicy} {tree : Tree}
    {origin : Origin} {args items : List Value} {part : Nat} {f : Failure} {done : List Value}
    {rest : List (Except Failure Value)}
    (h : expansions base policy tree origin args part items = done.map .ok ++ .error f :: rest) :
    f.span.isSome := by
  have hmem : .error f ∈ expansions base policy tree origin args part items := by
    rw [h]
    exact List.mem_append_right _ List.mem_cons_self
  obtain ⟨_, _, hexpand⟩ := mem_expansions hmem
  exact Tree.expand_span hexpand

theorem Outcome.located_of_span {α : Type} (span : Span) {x : Outcome α}
    (h : ∀ f, x = .error (.failed f) → f.span.isSome) : located span x = x := by
  rcases x with (_ | ⟨cause, _ | s, beneath⟩) | a
  · rfl
  · cases h _ rfl
  · rfl
  · rfl

/-- A call of a fragment on a list expands it for every item. -/
theorem Expr.eval_fragment_on_list {o : TemplateOptions} {fragments : Fragments} {name : String}
    {tree : Tree} (htree : fragments.get? name = some tree) {list : Expr} {es : List Expr}
    {origin : Origin} {context : Context} {items values : List Value}
    (hlist : list.eval (o.environment fragments) (origin.child 0) context = .ok (.list items))
    (hlength : es.length ≤ FragmentCall.maxArguments)
    (hvalues : evalItems (o.environment fragments) es origin 3 context = .ok values)
    (span place : Span) :
    (call span (some list) FragmentCall.functionName (literal place (.string name) :: es)).eval
        (o.environment fragments) origin context =
      .located span (do return .list (← FragmentCall.invokeEach o.baseActivation o.policy tree
        (origin.child 1) values 0 items)) := by
  have hargs : evalItems (o.environment fragments) (literal place (.string name) :: es) origin 2
      context = .ok (.string name :: values) := by
    rw [evalItems, eval, hvalues]
    rfl
  have haccepts := FragmentCall.signature_accepts_list name items
    (evalItems_length hvalues ▸ hlength : values.length ≤ FragmentCall.maxArguments)
  rw [eval, evalOptional, hlist, ok_bind, hargs]
  simp only [pure_eq_ok, ok_bind]
  rw [TemplateOptions.environment_eq, Environment.call, Entries.get?_insert_self]
  simp only [FragmentCall.function, haccepts, if_true, FragmentCall.call, htree]
  rfl

/-- A loop without a test collects the image of every item. -/
theorem Expr.eval_map {env : Environment} {list : Expr} {origin : Origin} {context : Context}
    {items : List Value} (hlist : list.eval env (origin.child 0) context = .ok (.list items))
    (span : Span) (x : String) (image : Expr) :
    (collect span list x none image).eval env origin context =
      .located span (do return .list (← Loop.collect (fun _ _ => .ok true)
        (fun number item => image.eval env (origin.child (2 * number + 2)) (context.bind x item))
        0 items)) := by
  rw [eval, hlist]
  rfl

/-! ## The places of one item -/

/-- The objects of one item: those of the range, of the arguments, which the loop evaluates again,
and of the expansion. The call on the list is made at `origin`, the loop runs at `origin'`. -/
inductive ItemMoves (origin origin' : Origin) (number : Nat) : Origin → Origin → Prop
  | range : ItemMoves origin origin' number (origin.child 0) (origin'.child 0)
  | argument (n) : ItemMoves origin origin' number (origin.child (3 + n))
    ((origin'.child (2 * number + 2)).child (4 + n))
  | expansion : ItemMoves origin origin' number ((origin.child 1).child number)
    ((origin'.child (2 * number + 2)).child 1)

theorem Origin.steps_inj {o : Origin} {p q : List Nat} (h : o.below p = o.below q) :
    p.reverse = q.reverse := congrArg List.reverse (below_inj h)

/-- The places are told apart by the steps that lead there. -/
theorem ItemMoves.eq_of_below {origin origin' c d c' d' : Origin} {number : Nat}
    (h : ItemMoves origin origin' number c d) (h' : ItemMoves origin origin' number c' d')
    {p q : List Nat} (heq : c.below p = c'.below q ∨ d.below p = d'.below q) :
    c = c' ∧ d = d' := by
  cases h <;> cases h' <;> simp only [Origin.below_child] at heq <;>
    replace heq := heq.imp Origin.steps_inj Origin.steps_inj <;>
    simp only [List.reverse_append, List.reverse_cons, List.reverse_nil, List.nil_append,
      List.cons_append, List.cons.injEq] at heq
  case range.range => exact ⟨rfl, rfl⟩
  case expansion.expansion => exact ⟨rfl, rfl⟩
  case argument.argument m n =>
    obtain rfl : m = n := by omega
    exact ⟨rfl, rfl⟩
  all_goals omega

theorem ItemMoves.apart {known : Origin → Prop} {origin origin' : Origin}
    (hknown : ∀ path, ¬ known (origin.below path)) (hknown' : ∀ path, ¬ known (origin'.below path))
    (number : Nat) : Apart known (ItemMoves origin origin' number) := by
  refine ⟨fun c d h path => ?_, fun _ _ _ _ h h' _ _ heq => h.eq_of_below h' (.inl heq),
    fun _ _ _ _ h h' _ _ heq => h.eq_of_below h' (.inr heq)⟩
  cases h <;> simp only [Origin.below_child] <;> exact ⟨hknown _, hknown' _⟩

/-! ## Every item -/

/-- A failure of an expansion points into the fragment already. -/
theorem FragmentCall.located_invoke (base : Activation) (policy : ErrorPolicy) (tree : Tree)
    (origin : Origin) (args : List Value) (span : Span) :
    Outcome.located span (invoke base policy tree origin args) =
      invoke base policy tree origin args := by
  refine Outcome.located_of_span span fun f hf => ?_
  rw [invoke] at hf
  cases hexpand : tree.expand policy (base.bind "args" (.list args)).context origin with
  | ok v =>
    rw [hexpand] at hf
    cases hf
  | error g =>
    rw [hexpand] at hf
    cases hf
    exact Tree.expand_span hexpand

section

variable {known : Origin → Prop} {o : TemplateOptions} {fragments : Fragments}
  {origin origin' : Origin} {context : Context}

/-- The loop runs over alike items, whichever of them is looked at. -/
theorem range_moved (hknown : ∀ path, ¬ known (origin.below path))
    (hknown' : ∀ path, ¬ known (origin'.below path)) (ho : o.Uniform known)
    (hfragments : Fragments.compile o.fragmentEnvironment o.fragments = .ok fragments)
    {list : Expr} (hcontext : ∀ y ∈ list.free, ∀ v, context y = some v → v.Known known)
    {items : List Value}
    (hlist : list.eval (o.environment fragments) (origin.child 0) context = .ok (.list items)) :
    ∃ items', list.eval (o.environment fragments) (origin'.child 0) context = .ok (.list items') ∧
      List.Forall₂ (fun item item' => ∀ number,
        Like (Moved known (ItemMoves origin origin' number)) item item') items items' := by
  have hmoved (number : Nat) : ∃ items',
      list.eval (o.environment fragments) (origin'.child 0) context = .ok (.list items') ∧
        List.Forall₂ (Like (Moved known (ItemMoves origin origin' number))) items items' := by
    have hR := (ItemMoves.apart hknown hknown' number).renames
    have hagree := list.eval_like (Moved.places .range) (.of_known hR
      (fun _ _ f => TemplateOptions.environment_uniform ho hfragments) (fun _ _ => rfl) hcontext)
    rw [hlist] at hagree
    obtain ⟨v, hv, hlike⟩ := hagree.of_ok
    cases hlike with
    | list hitems => exact ⟨_, hv, hitems⟩
  obtain ⟨items', heval, hitems⟩ := hmoved 0
  refine ⟨items', heval, List.forall₂_iff_zip.mpr ⟨hitems.length_eq, fun hmem number => ?_⟩⟩
  obtain ⟨others, hothers, hlike⟩ := hmoved number
  rw [heval] at hothers
  cases hothers
  exact List.forall₂_zip hlike hmem

/-- The loop's call for an item expands the fragment like the call on the list does for it. -/
theorem expansion_moved (hknown : ∀ path, ¬ known (origin.below path))
    (hknown' : ∀ path, ¬ known (origin'.below path)) (ho : o.Uniform known)
    (hfragments : Fragments.compile o.fragmentEnvironment o.fragments = .ok fragments)
    {name x : String} {tree : Tree} (htree : fragments.get? name = some tree) {es es' : List Expr}
    (hcontext : ∀ y ∈ Expr.freeItems es, ∀ v, context y = some v → v.Known known)
    (hlength : es.length ≤ 4) {values : List Value}
    (hvalues : Expr.evalItems (o.environment fragments) es origin 3 context = .ok values)
    (hes' : Expr.bareItems es' = Expr.bareItems es) (hx : x ∉ Expr.freeItems es)
    (span place place' : Span) (number : Nat) {item item' : Value}
    (hitem : Like (Moved known (ItemMoves origin origin' number)) item item') :
    Agree (fun v v' => v.toJson = v'.toJson)
      (FragmentCall.invoke o.baseActivation o.policy tree ((origin.child 1).child number)
        (item :: values))
      ((Expr.call span none FragmentCall.functionName (.literal place (.string name) ::
        .ident place' x :: es')).eval (o.environment fragments) (origin'.child (2 * number + 2))
          (context.bind x item')) := by
  have hR := (ItemMoves.apart hknown hknown' number).renames
  -- The loop evaluates the arguments once more; its variable is not among their names.
  have hunbound : ∀ y ∈ Expr.freeItems es, context y = context.bind x item' y := by
    intro y hy
    have hne : y ≠ x := fun heq => hx (heq ▸ hy)
    rw [Context.bind, if_neg hne]
  have hplaces (n : Nat) : Places (Moved known (ItemMoves origin origin' number))
      (origin.child (3 + n)) ((origin'.child (2 * number + 2)).child (4 + n)) :=
    Moved.places (.argument n)
  have hagain := Expr.evalItems_like es hplaces
    (.of_known hR (fun _ _ f => TemplateOptions.environment_uniform ho hfragments) hunbound
      hcontext)
  rw [hvalues] at hagain
  obtain ⟨values', hvalues', hlike⟩ := hagain.of_ok
  have hwritten := Expr.evalItems_of_bare hes' hvalues'
  have hargs : Expr.evalItems (o.environment fragments) (.ident place' x :: es')
      (origin'.child (2 * number + 2)) 3 (context.bind x item') = .ok (item' :: values') := by
    have hname : (Expr.ident place' x).eval (o.environment fragments)
        ((origin'.child (2 * number + 2)).child 3) (context.bind x item') = .ok item' := by
      rw [Expr.eval, Context.resolve, Context.bind, if_pos rfl]
      rfl
    rw [Expr.evalItems, hname, ok_bind, hwritten]
    rfl
  have hlength' : (Expr.ident place' x :: es').length ≤ FragmentCall.maxArguments := by
    have hes : values'.length = es.length := Expr.evalItems_length hvalues'
    have hes' : values'.length = es'.length := Expr.evalItems_length hwritten
    show es'.length + 1 ≤ 5
    omega
  rw [Expr.eval_fragment htree hlength' hargs]
  show Agree _ _ (Outcome.located span (FragmentCall.invoke o.baseActivation o.policy tree _ _))
  rw [FragmentCall.located_invoke]
  exact (TemplateOptions.invoke_like ho hR hfragments htree (Moved.places .expansion)
    (.cons hitem hlike)).mono fun _ _ hv => hv.toJson

end

/-- **A fragment on a list is the fragment on every item.** The call on the list and the loop that
calls the fragment on each item, with the same further arguments, give lists that are written alike
item by item, or both fail like the first expansion that fails. The host offers uniform functions,
`known` are the objects that were there before, and the loop's variable is none of the arguments'
names. -/
theorem fragment_on_list_eq_map (known : Origin → Prop) (o : TemplateOptions)
    (fragments : Fragments) (name x : String) (tree : Tree) (list list' : Expr) (es es' : List Expr)
    (span span' span'' place place' place'' : Span) (origin origin' : Origin) (context : Context)
    (items values : List Value) (hknown : ∀ path, ¬ known (origin.below path))
    (hknown' : ∀ path, ¬ known (origin'.below path)) (ho : o.Uniform known)
    (hfragments : Fragments.compile o.fragmentEnvironment o.fragments = .ok fragments)
    (htree : fragments.get? name = some tree)
    (hcontext : ∀ y ∈ list.free ++ Expr.freeItems es, ∀ v, context y = some v → v.Known known)
    (hlist : list.eval (o.environment fragments) (origin.child 0) context = .ok (.list items))
    (hlength : es.length ≤ 4)
    (hvalues : Expr.evalItems (o.environment fragments) es origin 3 context = .ok values)
    (hlist' : list'.bare = list.bare) (hes' : Expr.bareItems es' = Expr.bareItems es)
    (hx : x ∉ Expr.freeItems es) :
    let call := Expr.call span (some list) FragmentCall.functionName
      (.literal place (.string name) :: es)
    let loop := Expr.collect span' list' x none (.call span'' none FragmentCall.functionName
      (.literal place' (.string name) :: .ident place'' x :: es'))
    let expansions := FragmentCall.expansions o.baseActivation o.policy tree (origin.child 1) values
      0 items
    (∃ outs outs', expansions = outs.map .ok ∧
      call.eval (o.environment fragments) origin context = .ok (.list outs) ∧
      loop.eval (o.environment fragments) origin' context = .ok (.list outs') ∧
      List.Forall₂ (fun v v' => v.toJson = v'.toJson) outs outs') ∨
    ∃ (f : Failure) (done : List Value) (rest : List (Except Failure Value)),
      expansions = done.map .ok ++ .error f :: rest ∧
      call.eval (o.environment fragments) origin context = .error (.failed f) ∧
      loop.eval (o.environment fragments) origin' context = .error (.failed f) := by
  intro call loop expansions
  obtain ⟨items', hlist₂, hitems⟩ := range_moved hknown hknown' ho hfragments
    (fun y hy => hcontext y (List.mem_append_left _ hy)) hlist
  have hcall : call.eval (o.environment fragments) origin context =
      .located span (do return .list (← FragmentCall.invokeEach o.baseActivation o.policy tree
        (origin.child 1) values 0 items)) :=
    Expr.eval_fragment_on_list htree hlist (Nat.le_trans hlength (by decide)) hvalues span place
  have hloop := Expr.eval_map (Expr.eval_of_bare hlist' hlist₂) span' x
    (.call span'' none FragmentCall.functionName
      (.literal place' (.string name) :: .ident place'' x :: es'))
  have hagree := FragmentCall.invokeEach_collect o.baseActivation o.policy tree (origin.child 1)
    values (hitems.imp fun item item' hitem number => expansion_moved hknown hknown' ho hfragments
      htree (fun y hy => hcontext y (List.mem_append_right _ hy)) hlength hvalues hes' hx span''
      place' place'' number (hitem number)) 0
  rcases FragmentCall.invokeEach_cases o.baseActivation o.policy tree (origin.child 1) values items
    0 with ⟨outs, hexpansions, heach⟩ | ⟨f, done, rest, hexpansions, heach⟩
  · rw [heach] at hagree
    obtain ⟨outs', hcollect, hsame⟩ := hagree.of_ok
    refine .inl ⟨outs, outs', hexpansions, ?_, ?_, hsame⟩
    · rw [hcall, heach]
      rfl
    · rw [hloop, hcollect]
      rfl
  · rw [heach] at hagree
    have hcollect := hagree.of_error
    -- The failure points into the fragment, so neither expression around it is blamed.
    have hspan : f.span.isSome := FragmentCall.expansions_span hexpansions
    refine .inr ⟨f, done, rest, hexpansions, ?_, ?_⟩
    · rw [hcall, heach]
      exact Outcome.located_of_span span fun g hg => by cases hg; exact hspan
    · rw [hloop, hcollect]
      exact Outcome.located_of_span span' fun g hg => by cases hg; exact hspan

/-- The second item fails to be put together with the argument: both calls fail like it. -/
theorem fragment_on_list_eq_map_of_failing_item :
    let o := { TemplateOptions.default with
      strictErrors := true
      fragments := [("f", "\x7b\"m\": \"args[0] + args[1]\"\x7d")] }
    ∃ fragments call loop f, Fragments.compile o.fragmentEnvironment o.fragments = .ok fragments ∧
      Expr.parse "['a', true].fragment('f', 'b')" = .ok call ∧
      Expr.parse "['a', true].map(e, fragment('f', e, 'b'))" = .ok loop ∧
      call.eval (o.environment fragments) ⟨[0]⟩ o.baseActivation.context = .error (.failed f) ∧
      loop.eval (o.environment fragments) ⟨[1]⟩ o.baseActivation.context = .error (.failed f) := by
  intro o
  let list := Expr.list ⟨0, 11⟩ [.literal ⟨1, 4⟩ (.string "a"), .literal ⟨6, 10⟩ (.bool true)]
  let call := Expr.call ⟨0, 30⟩ (some list) FragmentCall.functionName
    [.literal ⟨21, 24⟩ (.string "f"), .literal ⟨26, 29⟩ (.string "b")]
  let loop := Expr.collect ⟨0, 41⟩ list "e" none (.call ⟨19, 40⟩ none FragmentCall.functionName
    [.literal ⟨28, 31⟩ (.string "f"), .ident ⟨33, 34⟩ "e", .literal ⟨36, 39⟩ (.string "b")])
  obtain ⟨fragments, hfragments⟩ : ∃ fragments,
      Fragments.compile o.fragmentEnvironment o.fragments = .ok fragments :=
    failure?_eq_none.mp (by decide +kernel)
  have htext : o.fragments.get? "f" = some "\x7b\"m\": \"args[0] + args[1]\"\x7d" := rfl
  obtain ⟨tree, htree, -⟩ := Fragments.get?_compile hfragments htext
  have hcall : Expr.parse "['a', true].fragment('f', 'b')" = .ok call := by
    have htokens : Token.ofSource "['a', true].fragment('f', 'b')" =
        [⟨.mark '[', ⟨0, 1⟩⟩, ⟨.string ['a'], ⟨1, 4⟩⟩, ⟨.mark ',', ⟨4, 5⟩⟩, ⟨.word "true", ⟨6, 10⟩⟩,
          ⟨.mark ']', ⟨10, 11⟩⟩, ⟨.mark '.', ⟨11, 12⟩⟩, ⟨.word "fragment", ⟨12, 20⟩⟩,
          ⟨.mark '(', ⟨20, 21⟩⟩, ⟨.string ['f'], ⟨21, 24⟩⟩, ⟨.mark ',', ⟨24, 25⟩⟩,
          ⟨.string ['b'], ⟨26, 29⟩⟩, ⟨.mark ')', ⟨29, 30⟩⟩, ⟨.finish, ⟨30, 31⟩⟩] := by
      decide +kernel
    rw [Expr.parse, htokens]
    rfl
  have hloop : Expr.parse "['a', true].map(e, fragment('f', e, 'b'))" = .ok loop := by
    have htokens : Token.ofSource "['a', true].map(e, fragment('f', e, 'b'))" =
        [⟨.mark '[', ⟨0, 1⟩⟩, ⟨.string ['a'], ⟨1, 4⟩⟩, ⟨.mark ',', ⟨4, 5⟩⟩, ⟨.word "true", ⟨6, 10⟩⟩,
          ⟨.mark ']', ⟨10, 11⟩⟩, ⟨.mark '.', ⟨11, 12⟩⟩, ⟨.word "map", ⟨12, 15⟩⟩,
          ⟨.mark '(', ⟨15, 16⟩⟩, ⟨.word "e", ⟨16, 17⟩⟩, ⟨.mark ',', ⟨17, 18⟩⟩,
          ⟨.word "fragment", ⟨19, 27⟩⟩, ⟨.mark '(', ⟨27, 28⟩⟩, ⟨.string ['f'], ⟨28, 31⟩⟩,
          ⟨.mark ',', ⟨31, 32⟩⟩, ⟨.word "e", ⟨33, 34⟩⟩, ⟨.mark ',', ⟨34, 35⟩⟩,
          ⟨.string ['b'], ⟨36, 39⟩⟩, ⟨.mark ')', ⟨39, 40⟩⟩, ⟨.mark ')', ⟨40, 41⟩⟩,
          ⟨.finish, ⟨41, 42⟩⟩] := by
      decide +kernel
    rw [Expr.parse, htokens]
    rfl
  rcases fragment_on_list_eq_map (fun _ => False) o fragments "f" "e" tree list list
    [.literal ⟨26, 29⟩ (.string "b")] [.literal ⟨36, 39⟩ (.string "b")] ⟨0, 30⟩ ⟨0, 41⟩ ⟨19, 40⟩
    ⟨21, 24⟩ ⟨28, 31⟩ ⟨33, 34⟩ ⟨[0]⟩ ⟨[1]⟩ o.baseActivation.context [.string "a", .bool true]
    [.string "b"] (fun _ h => h) (fun _ h => h) ⟨nofun, nofun, nofun⟩ hfragments htree nofun rfl
    (by decide) rfl rfl rfl (by decide) with ⟨outs, -, -, hok, -⟩ | ⟨f, -, -, -, hfail, hfail'⟩
  · have hfails : (Fragments.compile o.fragmentEnvironment o.fragments).toOption.all
        (fun fragments => (failure? (call.eval (o.environment fragments) ⟨[0]⟩
          o.baseActivation.context)).isSome) = true := by
      decide +kernel
    rw [hfragments] at hfails
    have hnone : failure? (call.eval (o.environment fragments) ⟨[0]⟩ o.baseActivation.context) =
      none := failure?_eq_none.mpr ⟨_, hok⟩
    simp [Except.toOption, hnone] at hfails
  · exact ⟨fragments, call, loop, f, hfragments, hcall, hloop, hfail, hfail'⟩

end JsonTemplate
