/-
Loops in a row. Every loop that needs all its tests goes over the items that pass, each with its
number (`Loop.numbered`): a filter keeps them, a loop with a test maps them, and exactly one item
passes if there is one of them. So a loop with a test may be cut in two, a filter and a loop over
what it keeps. The images are then made at other places, in the order of what was kept, so the lists
are the same but for the objects that they made on the way (`filtered_loops_fuse`).
-/
import JsonTemplate.Proofs.Quantifiers

namespace JsonTemplate

open Value (Like)

/-! ## The items that pass -/

namespace Loop

/-- The items that pass, with their numbers. -/
def numbered (test : Step Bool) (number : Nat) : List Value → Outcome (List (Nat × Value))
  | [] => .ok []
  | item :: rest => do
    let keep ← test number item
    let others ← numbered test (number + 1) rest
    return if keep then (number, item) :: others else others

section

variable {test test' : Step Bool} {image : Step Value}

theorem filter_eq_numbered : ∀ (items : List Value) (n : Nat),
    filter test n items = (numbered test n items).map fun kept => kept.map Prod.snd
  | [], _ => rfl
  | item :: rest, n => by
    rw [filter, numbered, filter_eq_numbered rest (n + 1)]
    rcases test n item with i | keep
    · rfl
    · rcases numbered test (n + 1) rest with i | kept
      · rfl
      · cases keep <;> rfl

theorem count_eq_numbered : ∀ (items : List Value) (n : Nat),
    count test n items = (numbered test n items).map List.length
  | [], _ => rfl
  | item :: rest, n => by
    rw [count, numbered, count_eq_numbered rest (n + 1)]
    rcases test n item with i | keep
    · rfl
    · rcases numbered test (n + 1) rest with i | kept
      · rfl
      · cases keep <;> rfl

/-- A loop with a test gives what its image makes of the items that pass. The tests of later items
come after the images of earlier ones, so it may be interrupted by something else. -/
theorem collect_eq_ok : ∀ (items : List Value) (n : Nat) (outs : List Value),
    collect test image n items = .ok outs ↔
      ∃ kept, numbered test n items = .ok kept ∧ kept.mapM (fun p => image p.1 p.2) = .ok outs
  | [], n, outs => by simp [collect, numbered]
  | item :: rest, n, outs => by
    rw [collect, numbered]
    rcases test n item with i | keep
    · simp
    have hrest := collect_eq_ok rest (n + 1)
    cases keep with
    | false => simp [hrest, bind_eq_ok]
    | true =>
      simp only [ok_bind, if_true, bind_eq_ok, hrest, pure_eq_ok, Except.ok.injEq]
      constructor
      · rintro ⟨first, hfirst, _, ⟨kept, hkept, hmap⟩, rfl⟩
        refine ⟨_, ⟨kept, hkept, rfl⟩, ?_⟩
        rw [List.mapM_cons, hfirst, ok_bind, hmap]
        rfl
      · rintro ⟨_, ⟨kept, hkept, rfl⟩, hmap⟩
        simp only [List.mapM_cons, bind_eq_ok, pure_eq_ok, Except.ok.injEq] at hmap
        obtain ⟨first, hfirst, others, hothers, rfl⟩ := hmap
        exact ⟨first, hfirst, others, ⟨kept, hkept, hothers⟩, rfl⟩

/-- A loop without a test maps the items. -/
theorem collect_all (image : Step Value) : ∀ (items : List Value) (n : Nat),
    collect (fun _ _ => .ok true) image n items =
      (items.zipIdx n).mapM fun p => image p.2 p.1
  | [], _ => rfl
  | item :: rest, n => by
    rw [collect, List.zipIdx_cons, List.mapM_cons, ← collect_all image rest (n + 1)]
    rfl

/-- What passes is among the items, in their order. -/
theorem numbered_sublist : ∀ (items : List Value) (n : Nat) (kept : List (Nat × Value)),
    numbered test n items = .ok kept → kept.Sublist ((items.zipIdx n).map Prod.swap)
  | [], _, _, h => by
    cases h
    exact .slnil
  | item :: rest, n, kept, h => by
    simp only [numbered, bind_eq_ok, pure_eq_ok, Except.ok.injEq] at h
    obtain ⟨keep, -, others, hothers, rfl⟩ := h
    have hrest := numbered_sublist rest (n + 1) others hothers
    cases keep with
    | false => exact hrest.cons _
    | true => exact hrest.cons_cons _

theorem nodup_numbered {items : List Value} {n : Nat} {kept : List (Nat × Value)}
    (h : numbered test n items = .ok kept) : (kept.map Prod.fst).Nodup := by
  have hsub := (numbered_sublist items n kept h).map Prod.fst
  have hnumbers : ((items.zipIdx n).map Prod.swap).map Prod.fst = List.range' n items.length := by
    rw [List.map_map]
    exact List.zipIdx_map_snd n items
  rw [hnumbers] at hsub
  exact hsub.nodup List.nodup_range'

/-- Related items pass under the same numbers. -/
theorem numbered_related {P : Value → Value → Prop}
    (htest : ∀ n v v', P v v' → test n v = test' n v') {items items' : List Value}
    (h : List.Forall₂ P items items') (n : Nat) :
    Agree (List.Forall₂ fun p q => p.1 = q.1 ∧ P p.2 q.2) (numbered test n items)
      (numbered test' n items') := by
  induction h generalizing n with
  | nil => exact .ok .nil
  | cons hitem _ ih =>
    rw [numbered, numbered, htest n _ _ hitem]
    refine .bind_same fun keep => (ih (n + 1)).bind fun _ _ hothers => ?_
    cases keep with
    | true => exact .ok (.cons ⟨rfl, hitem⟩ hothers)
    | false => exact .ok hothers

end

end Loop

theorem Quantifier.run_filter (test : Loop.Step Bool) (items : List Value) :
    run .filter test items =
      (Loop.numbered test 0 items).map fun kept => .list (kept.map Prod.snd) := by
  rw [run, Loop.filter_eq_numbered]
  cases Loop.numbered test 0 items <;> rfl

theorem Quantifier.run_one (test : Loop.Step Bool) (items : List Value) :
    run .one test items =
      (Loop.numbered test 0 items).map fun kept => .bool (kept.length == 1) := by
  rw [run, Loop.count_eq_numbered]
  cases Loop.numbered test 0 items <;> rfl

/-- Steps that agree item by item agree over the items. -/
theorem Agree.mapM {ε α β γ δ : Type} {P : γ → δ → Prop} {f : α → Except ε γ}
    {g : β → Except ε δ} {as : List α} {bs : List β}
    (h : List.Forall₂ (fun a b => Agree P (f a) (g b)) as bs) :
    Agree (List.Forall₂ P) (as.mapM f) (bs.mapM g) := by
  induction h with
  | nil => exact .ok .nil
  | cons hab _ ih =>
    rw [List.mapM_cons, List.mapM_cons]
    exact hab.bind fun _ _ hv => ih.bind fun _ _ hvs => .ok (.cons hv hvs)

theorem error_of_ne_ok {ε α : Type} {x : Except ε α} (h : ∀ a, x ≠ .ok a) :
    ∃ e, x = .error e := by
  cases x with
  | ok a => exact absurd rfl (h a)
  | error e => exact ⟨e, rfl⟩

theorem Outcome.located_eq_ok {α : Type} {span : Span} {x : Outcome α} {a : α} :
    located span x = .ok a ↔ x = .ok a := by
  cases x <;> simp [located]

/-! ## Expressions -/

namespace Expr

section

variable (env : Environment) (range test : Expr) (name : String) (context : Context)

/-- The items of a range that pass a test, where the range is evaluated at `place` and the test
for the item of a number at the place of this number. -/
def passing (place : Origin) (places : Nat → Origin) : Outcome (List (Nat × Value)) := do
  let items ← (← range.eval env place context).range range.span
  Loop.numbered (fun number item =>
    (test.eval env (places number) (context.bind name item)).condition test.span) 0 items

/-- A loop that looks at what passes only. -/
theorem eval_quantify_passing {q : Quantifier} {f : List (Nat × Value) → Value}
    (hq : ∀ test items, q.run test items = (Loop.numbered test 0 items).map f) (span : Span)
    (origin : Origin) : (quantify span q range name test).eval env origin context =
      (passing env range test name context (origin.child 0) fun n => origin.child (n + 1)).map
        f := by
  rw [eval_quantify, passing]
  rcases range.eval env (origin.child 0) context with i | v
  · rfl
  rcases hitems : v.range range.span with i | items
  · rw [ok_bind, ok_bind, hitems]
    rfl
  · rw [ok_bind, ok_bind, hitems, ok_bind, ok_bind, hq]

theorem eval_filter (span : Span) (origin : Origin) :
    (quantify span .filter range name test).eval env origin context =
      (passing env range test name context (origin.child 0) fun n => origin.child (n + 1)).map
        fun kept => .list (kept.map Prod.snd) :=
  eval_quantify_passing env range test name context Quantifier.run_filter span origin

theorem eval_one (span : Span) (origin : Origin) :
    (quantify span .one range name test).eval env origin context =
      (passing env range test name context (origin.child 0) fun n => origin.child (n + 1)).map
        fun kept => .bool (kept.length == 1) :=
  eval_quantify_passing env range test name context Quantifier.run_one span origin

/-- A loop with a test gives the images of the items that pass. -/
theorem eval_collect_test (span : Span) (image : Expr) (origin : Origin) (v : Value) :
    (collect span range name (some test) image).eval env origin context = .ok v ↔
      ∃ outs, (do
        let kept ← passing env range test name context (origin.child 0)
          fun n => origin.child (2 * n + 1)
        kept.mapM fun p : Nat × Value =>
          image.eval env (origin.child (2 * p.1 + 2)) (context.bind name p.2)) = .ok outs ∧
        v = .list outs := by
  simp only [eval, evalTest, Outcome.located_eq_ok, passing, bind_eq_ok, Loop.collect_eq_ok,
    pure_eq_ok, Except.ok.injEq]
  constructor
  · rintro ⟨w, hw, items, hitems, outs, ⟨kept, hkept, houts⟩, rfl⟩
    exact ⟨outs, ⟨kept, ⟨w, hw, items, hitems, hkept⟩, houts⟩, rfl⟩
  · rintro ⟨outs, ⟨kept, ⟨w, hw, items, hitems, hkept⟩, houts⟩, rfl⟩
    exact ⟨w, hw, items, hitems, outs, ⟨kept, hkept, houts⟩, rfl⟩

/-- A loop over what a filter keeps gives the images of the items that pass, each at the place of
its number among these. -/
theorem eval_collect_filter (span span' : Span) (image : Expr) (origin : Origin) (v : Value) :
    (collect span (quantify span' .filter range name test) name none image).eval env origin
        context = .ok v ↔
      ∃ outs, (do
        let kept ← passing env range test name context ((origin.child 0).child 0)
          fun n => (origin.child 0).child (n + 1)
        (kept.map Prod.snd).zipIdx.mapM fun p : Value × Nat =>
          image.eval env (origin.child (2 * p.2 + 2)) (context.bind name p.1)) = .ok outs ∧
        v = .list outs := by
  have hkept := eval_filter env range test name context span' (origin.child 0)
  generalize passing env range test name context ((origin.child 0).child 0) _ = x at hkept ⊢
  cases x with
  | error i =>
    rw [eval, hkept]
    exact ⟨nofun, nofun⟩
  | ok kept =>
    rw [eval_map hkept, Loop.collect_all, Outcome.located_eq_ok]
    simp only [bind_eq_ok, pure_eq_ok, ok_bind, Except.ok.injEq, eq_comm (a := v)]

end

end Expr

/-! ## Known values -/

section Known

variable {known : Origin → Prop} {R : Origin → Origin → Prop}

/-- A known object is the only one that stands for it. -/
theorem Renames.eq_of_known (hR : Renames known R) {a b : Origin} (hab : R a b)
    (ha : known a) : a = b :=
  (hR.faithful a a a b (hR.known a ha) hab).mp rfl

theorem Renames.symm (hR : Renames known R) : Renames known fun a b => R b a :=
  ⟨fun a a' b b' ha hb => (hR.faithful a' a b' b ha hb).symm, hR.known⟩

theorem Value.Known.eq_of_like {v v' : Value} (h : v.Known known) (hR : Renames known R)
    (hlike : Like R v v') : v = v' :=
  hlike.eq_of_fixed (fun _ _ hab ha => hR.eq_of_known hab ha.2) h

end Known

/-! ## Places -/

/-- What a loop with a test evaluates, and a loop over what a filter keeps, if the items of the
given numbers pass. -/
inductive FusionSteps (numbers : List Nat) : List Nat → List Nat → Prop
  | range : FusionSteps numbers [0] [0, 0]
  | test (n : Nat) : FusionSteps numbers [2 * n + 1] [0, n + 1]
  | image {m n : Nat} : numbers[m]? = some n → FusionSteps numbers [2 * n + 2] [2 * m + 2]

theorem FusionSteps.forks {numbers : List Nat} (h : numbers.Nodup) :
    Forks (FusionSteps numbers) := by
  -- The steps are told apart by their first number and its parity, those to images by the numbers
  -- of the items, none of which occurs twice.
  intro s t s' t' hst hst' hprefix
  cases hst <;> cases hst' <;> simp [List.cons_prefix_cons] at hprefix ⊢
  case image.image m n hm m' n' hm' =>
    have hnumber (heq : n = n') : m = m' :=
      (List.getElem?_inj (List.getElem?_eq_some_iff.mp hm).1 h).mp (by rw [hm, hm', heq])
    have hplace (heq : m = m') : n = n' := by
      rw [heq, hm'] at hm
      exact (Option.some.inj hm).symm
    omega
  all_goals omega

theorem FusionSteps.mono {numbers : List Nat} {s t : List Nat} (h : FusionSteps [] s t) :
    FusionSteps numbers s t := by
  cases h with
  | range => exact .range
  | test n => exact .test n
  | image h => cases h

/-- More steps move more. -/
theorem Moved.mono {known : Origin → Prop} {steps steps' : List Nat → List Nat → Prop}
    {origin origin' a b : Origin} (hsteps : ∀ s t, steps s t → steps' s t)
    (h : Moved known (Along steps origin origin') a b) :
    Moved known (Along steps' origin origin') a b := by
  refine h.imp_right ?_
  rintro ⟨c, d, path, ⟨s, t, hst, hc, hd⟩, ha, hb⟩
  exact ⟨c, d, path, ⟨s, t, hsteps s t hst, hc, hd⟩, ha, hb⟩

section

variable {known : Origin → Prop} {env : Environment} {context : Context} {range test image : Expr}
  {name : String} {R : Origin → Origin → Prop}

theorem Expr.nodup_passing {place : Origin} {places : Nat → Origin} {kept : List (Nat × Value)}
    (h : passing env range test name context place places = .ok kept) :
    (kept.map Prod.fst).Nodup := by
  simp only [passing, bind_eq_ok] at h
  obtain ⟨_, -, _, -, h⟩ := h
  exact Loop.nodup_numbered h

/-- Like items pass at places that stand for each other. -/
theorem Expr.passing_like (hrange : env.Pure known context range.calls range.free)
    (htest : env.Pure known context test.calls (test.free.filter (· ≠ name)))
    (hR : Renames known R) {place place' : Origin} {places places' : Nat → Origin}
    (hplace : Places R place place') (hplaces : ∀ n, Places R (places n) (places' n)) :
    Agree (List.Forall₂ fun p q => p.1 = q.1 ∧ Like R p.2 q.2)
      (passing env range test name context place places)
      (passing env range test name context place' places') := by
  refine (hrange.eval hR hplace).bind fun _ _ hv =>
    (Like.congruence.range range.span hv).bind fun _ _ hitems =>
      Loop.numbered_related (P := Like R) (fun n _ _ hitem => ?_) hitems 0
  exact Like.congruence.condition (htest.eval_bind hR (hplaces n) hitem) test.span

/-- The items that passed have like images, if the place of the number of each stands for that of
its number among those that did. -/
theorem Expr.images_like (himage : env.Pure known context image.calls
      (image.free.filter (· ≠ name))) (hR : Renames known R) {origin origin' : Origin}
    {kept kept' : List (Nat × Value)}
    (h : List.Forall₂ (fun p q => p.1 = q.1 ∧ Like R p.2 q.2) kept kept')
    (hplaces : ∀ m n, (kept.map Prod.fst)[m]? = some n →
      Places R (origin.child (2 * n + 2)) (origin'.child (2 * m + 2))) :
    Agree (List.Forall₂ (Like R))
      (kept.mapM fun p : Nat × Value =>
        image.eval env (origin.child (2 * p.1 + 2)) (context.bind name p.2))
      ((kept'.map Prod.snd).zipIdx.mapM fun p : Value × Nat =>
        image.eval env (origin'.child (2 * p.2 + 2)) (context.bind name p.1)) := by
  refine Agree.mapM (List.forall₂_iff_get.mpr ⟨by simp [h.length_eq], fun m hm hm' => ?_⟩)
  have hitem := (List.forall₂_iff_get.mp h).2 m hm (h.length_eq ▸ hm)
  simp only [List.get_eq_getElem, List.getElem_zipIdx, List.getElem_map, Nat.zero_add] at hitem ⊢
  refine himage.eval_bind hR (hplaces m _ ?_) hitem.2
  simp [hm]

/-- A loop with a test and a loop over what a filter keeps have like items, or both none. -/
theorem Expr.eval_fused (hrange : env.Pure known context range.calls range.free)
    (htest : env.Pure known context test.calls (test.free.filter (· ≠ name)))
    (himage : env.Pure known context image.calls (image.free.filter (· ≠ name)))
    {origin origin' : Origin} (horigin : Fresh known origin) (horigin' : Fresh known origin')
    (span span' span'' : Span) :
    (∃ R items items', Renames known R ∧ List.Forall₂ (Like R) items items' ∧
      (collect span range name (some test) image).eval env origin context = .ok (.list items) ∧
      (collect span' (quantify span'' .filter range name test) name none image).eval env origin'
        context = .ok (.list items')) ∨
    ∀ v, (collect span range name (some test) image).eval env origin context ≠ .ok v ∧
      (collect span' (quantify span'' .filter range name test) name none image).eval env origin'
        context ≠ .ok v := by
  simp only [ne_eq, eval_collect_test, eval_collect_filter]
  -- Which items pass is settled before there is an image of any of them.
  have hnone := ((FusionSteps.forks List.nodup_nil).apart horigin horigin').renames
  have hpassing : Agree (List.Forall₂ fun p q => p.1 = q.1 ∧ Like _ p.2 q.2)
      (passing env range test name context (origin.child 0) fun n => origin.child (2 * n + 1))
      (passing env range test name context ((origin'.child 0).child 0)
        fun n => (origin'.child 0).child (n + 1)) :=
    passing_like hrange htest hnone (Moved.along FusionSteps.range)
      fun n => Moved.along (FusionSteps.test n)
  rcases hpassing.ok_or_error with ⟨kept, kept', hx, hx', hkept⟩ | ⟨i, hx, hx'⟩
  · have hR := ((FusionSteps.forks (nodup_passing hx)).apart horigin horigin').renames
    have hmore : ∀ a b, Moved known (Along (FusionSteps []) origin origin') a b →
        Moved known (Along (FusionSteps (kept.map Prod.fst)) origin origin') a b :=
      fun _ _ => Moved.mono fun _ _ => FusionSteps.mono
    have himages := images_like himage hR
      (hkept.imp fun _ _ hpq => hpq.imp_right (Like.mono hmore)) fun m n hmn =>
        Moved.along (FusionSteps.image hmn)
    rw [hx, hx']
    rcases himages.ok_or_error with ⟨outs, outs', hy, hy', houts⟩ | ⟨i, hy, hy'⟩
    · exact .inl ⟨_, outs, outs', hR, houts, ⟨_, hy, rfl⟩, _, hy', rfl⟩
    · rw [ok_bind, ok_bind, hy, hy']
      exact .inr fun v => ⟨nofun, nofun⟩
  · rw [hx, hx']
    exact .inr fun v => ⟨nofun, nofun⟩

/-- One item passes if the filter keeps one. -/
theorem Expr.eval_one_of_filter (hrange : env.Pure known context range.calls range.free)
    (htest : env.Pure known context test.calls (test.free.filter (· ≠ name)))
    {origin origin' : Origin} (horigin : Fresh known origin) (horigin' : Fresh known origin')
    (span span' : Span) :
    (∃ items, (quantify span .filter range name test).eval env origin context = .ok (.list items) ∧
      (quantify span' .one range name test).eval env origin' context =
        .ok (.bool (items.length == 1))) ∨
    ∃ i, (quantify span .filter range name test).eval env origin context = .error i ∧
      (quantify span' .one range name test).eval env origin' context = .error i := by
  rw [eval_filter, eval_one]
  have hR := (Apart.single horigin horigin').renames
  have hplaces : Places (Moved known fun c d => c = origin ∧ d = origin') origin origin' :=
    Moved.places ⟨rfl, rfl⟩
  have hpassing := passing_like hrange htest hR (hplaces.child 0) fun n => hplaces.child (n + 1)
  rcases hpassing.ok_or_error with ⟨kept, kept', hx, hx', hkept⟩ | ⟨i, hx, hx'⟩
  · rw [hx, hx']
    refine .inl ⟨kept.map Prod.snd, rfl, ?_⟩
    rw [List.length_map, hkept.length_eq]
    rfl
  · rw [hx, hx']
    exact .inr ⟨i, rfl, rfl⟩

end

/-- **A loop with a test is a loop over what a filter keeps.** With pure functions both give lists
of the same items, up to the objects that are made on the way, or both are interrupted; lists with
known objects only are the same. Exactly one item passes if the filter keeps exactly one, and what
interrupts the filter interrupts this loop. -/
theorem filtered_loops_fuse (known : Origin → Prop) (env : Environment) (context : Context)
    (range test image : Expr) (name : String) (span : Span) (origin origin' : Origin)
    (fused composed : Expr)
    (hfused : fused.bare = (Expr.collect span range name (some test) image).bare)
    (hcomposed : composed.bare =
      (Expr.collect span (.quantify span .filter range name test) name none image).bare)
    (hpure : env.Pure known context (range.calls ++ (test.calls ++ image.calls))
      (range.free ++ (test.free ++ image.free).filter (· ≠ name)))
    (horigin : Fresh known origin) (horigin' : Fresh known origin') :
    let x := fused.eval env origin context
    let y := composed.eval env origin' context
    let kept := (Expr.quantify span .filter range name test).eval env origin context
    let one := (Expr.quantify span .one range name test).eval env origin' context
    ((∃ R items items', Renames known R ∧ List.Forall₂ (Like R) items items' ∧
        x = .ok (.list items) ∧ y = .ok (.list items')) ∨
      ∃ i j, x = .error i ∧ y = .error j) ∧
    (∀ v, v.Known known → (x = .ok v ↔ y = .ok v)) ∧
    ((∃ items, kept = .ok (.list items) ∧ one = .ok (.bool (items.length == 1))) ∨
      ∃ i, kept = .error i ∧ one = .error i) := by
  intro x y kept one
  rw [List.filter_append] at hpure
  have hrange := hpure.sub (List.subset_append_left _ _) (List.subset_append_left _ _)
  have hbody := hpure.sub (List.subset_append_right _ _) (List.subset_append_right _ _)
  have htest := hbody.sub (List.subset_append_left _ _) (List.subset_append_left _ _)
  have himage := hbody.sub (List.subset_append_right _ _) (List.subset_append_right _ _)
  have hlike := Expr.eval_fused hrange htest himage horigin horigin' span span span
  simp only [ne_eq, ← Expr.eval_ok_of_bare hfused, ← Expr.eval_ok_of_bare hcomposed] at hlike
  refine ⟨?_, ?_, Expr.eval_one_of_filter hrange htest horigin horigin' span span⟩
  · refine hlike.imp_right fun hno => ?_
    obtain ⟨i, hi⟩ := error_of_ne_ok fun v => (hno v).1
    obtain ⟨j, hj⟩ := error_of_ne_ok fun v => (hno v).2
    exact ⟨i, j, hi, hj⟩
  · intro v hknown
    rcases hlike with ⟨R, items, items', hR, hitems, hx, hy⟩ | hno
    · rw [show x = _ from hx, show y = _ from hy]
      constructor
      · intro h
        cases h
        rw [hknown.eq_of_like hR (.list hitems)]
      · intro h
        cases h
        rw [hknown.eq_of_like hR.symm (Like.list hitems).symm]
    · exact ⟨fun h => absurd h (hno v).1, fun h => absurd h (hno v).2⟩

/-- `['a', 'b'].map(x, x != 'a', x + 'c')` and `['a', 'b'].filter(x, x != 'a').map(x, x + 'c')` are
both `['bc']`, and exactly one item of this range passes. -/
theorem filtered_loops_fuse_of_strings :
    let context : Context := fun _ => none
    let range := Expr.list ⟨0, 10⟩ [.literal ⟨1, 4⟩ (.string "a"), .literal ⟨6, 9⟩ (.string "b")]
    let test (n : Nat) := Expr.binary ⟨n, n + 8⟩ .ne (.ident ⟨n, n + 1⟩ "x")
      (.literal ⟨n + 5, n + 8⟩ (.string "a"))
    let image (n : Nat) := Expr.binary ⟨n, n + 7⟩ .add (.ident ⟨n, n + 1⟩ "x")
      (.literal ⟨n + 4, n + 7⟩ (.string "c"))
    let fused := Expr.collect ⟨0, 36⟩ range "x" (some (test 18)) (image 28)
    let composed := Expr.collect ⟨0, 46⟩ (.quantify ⟨0, 30⟩ .filter range "x" (test 21)) "x" none
      (image 38)
    fused.eval .standard ⟨[0]⟩ context = .ok (.list [.string "bc"]) ∧
    composed.eval .standard ⟨[1]⟩ context = .ok (.list [.string "bc"]) ∧
    (Expr.quantify ⟨0, 34⟩ .one range "x" (test 25)).eval .standard ⟨[1]⟩ context =
      .ok (.bool true) := by
  intro context range test image fused composed
  have hpure : Environment.standard.Pure (fun _ => False) context
      (range.calls ++ ((test 25).calls ++ (image 28).calls))
      (range.free ++ ((test 25).free ++ (image 28).free).filter (· ≠ "x")) :=
    ⟨nofun, fun _ _ _ => nofun⟩
  obtain ⟨-, hknown, hone⟩ := filtered_loops_fuse (fun _ => False) .standard context range (test 25)
    (image 28) "x" ⟨0, 34⟩ ⟨[0]⟩ ⟨[1]⟩ fused composed rfl rfl hpure (fun _ h => h) fun _ h => h
  have hfused : fused.eval .standard ⟨[0]⟩ context = .ok (.list [.string "bc"]) := rfl
  refine ⟨hfused, (hknown _ (.list (.cons (.string _) .nil))).mp hfused, ?_⟩
  have hkept : (Expr.quantify ⟨0, 34⟩ .filter range "x" (test 25)).eval .standard ⟨[0]⟩ context =
    .ok (.list [.string "b"]) := rfl
  rcases hone with ⟨items, hitems, hone⟩ | ⟨i, hi, -⟩
  · cases hkept.symm.trans hitems
    exact hone
  · cases hkept.symm.trans hi

end JsonTemplate
