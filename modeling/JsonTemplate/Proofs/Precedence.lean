/-
Trees of operators by how tightly they bind. In the tree of a sequence no operator stands above a
left side that binds looser, nor above a right side that does not bind tighter (`WellBound`), and
the tree lists the sequence as it was given. No other tree does both (`eq_of_items`).
-/
import JsonTemplate.Expr.Operator

namespace JsonTemplate.OpTree

variable {α β : Type}

/-- The operator on top, if there is one. -/
def top? : OpTree α → Option BinaryOp
  | operand _ => none
  | node _ op _ => some op

/-- An operator binds no tighter than what is on top of its left side, and looser than what is on
top of its right side. -/
def WellBound : OpTree α → Prop
  | operand _ => True
  | node left op right =>
    (∀ o ∈ left.top?, op.level ≤ o.level) ∧ (∀ o ∈ right.top?, op.level < o.level) ∧
      left.WellBound ∧ right.WellBound

/-! ## The tree of a sequence -/

/-- Only a looser or equal operator comes on top of a tree. -/
theorem top?_attach (tree : OpTree α) (op : BinaryOp) (b : α) :
    (tree.attach op b).top? = some op ∨
      (tree.attach op b).top? = tree.top? ∧ ∀ o ∈ tree.top?, o.level < op.level := by
  cases tree with
  | operand a => exact .inl rfl
  | node left o right =>
    by_cases h : o.level < op.level
    · right
      simp [attach, h, top?]
    · left
      simp [attach, h, top?]

theorem wellBound_attach {tree : OpTree α} (h : tree.WellBound) (op : BinaryOp) (b : α) :
    (tree.attach op b).WellBound := by
  induction tree with
  | operand a => simp [attach, WellBound, top?]
  | node left o right _ ih =>
    obtain ⟨hleft, hright, hl, hr⟩ := h
    by_cases ho : o.level < op.level
    · -- The operator goes down the right edge; what comes on top there still binds tighter.
      have htop : ∀ p ∈ (right.attach op b).top?, o.level < p.level := by
        intro p hp
        rcases top?_attach right op b with hnew | ⟨hold, -⟩
        · rw [hnew] at hp
          cases hp
          exact ho
        · rw [hold] at hp
          exact hright p hp
      simp only [attach, if_pos ho, WellBound]
      exact ⟨hleft, htop, hl, ih hr⟩
    · have hlevel : op.level ≤ o.level := Nat.le_of_not_lt ho
      simp only [attach, if_neg ho, WellBound]
      refine ⟨?_, fun p hp => absurd hp (Option.not_mem_none p), ⟨hleft, hright, hl, hr⟩, trivial⟩
      intro p hp
      cases hp
      exact hlevel

theorem foldl_attach_wellBound (rest : List (BinaryOp × α)) :
    ∀ {tree : OpTree α}, tree.WellBound →
      (rest.foldl (fun tree (op, value) => tree.attach op value) tree).WellBound := by
  induction rest with
  | nil => exact fun h => h
  | cons first rest ih => exact fun h => ih (wellBound_attach h first.1 first.2)

theorem ofSequence_wellBound (first : α) (rest : List (BinaryOp × α)) :
    (ofSequence first rest).WellBound :=
  foldl_attach_wellBound rest trivial

/-- A first operand, then operators and operands in turn. -/
def listed (first : α) (rest : List (BinaryOp × α)) : List (α ⊕ BinaryOp) :=
  .inl first :: rest.flatMap fun (op, value) => [.inr op, .inl value]

theorem items_foldl_attach (rest : List (BinaryOp × α)) (tree : OpTree α) :
    (rest.foldl (fun tree (op, value) => tree.attach op value) tree).items =
      tree.items ++ rest.flatMap fun (op, value) => [.inr op, .inl value] := by
  induction rest generalizing tree with
  | nil => simp
  | cons first rest ih =>
    rw [List.foldl_cons, ih, items_attach]
    simp

theorem items_ofSequence (first : α) (rest : List (BinaryOp × α)) :
    (ofSequence first rest).items = listed first rest :=
  items_foldl_attach rest (operand first)

/-! ## No other tree -/

/-- Every operator of a well-bound tree binds at least as tightly as the one on top. -/
theorem level_top_le {tree : OpTree α} (h : tree.WellBound) {o p : BinaryOp}
    (ho : o ∈ tree.top?) (hp : .inr p ∈ tree.items) : o.level ≤ p.level := by
  induction tree generalizing o with
  | operand a => cases ho
  | node left op right ihl ihr =>
    cases ho
    obtain ⟨hleft, hright, hl, hr⟩ := h
    simp only [items, List.mem_append, List.mem_cons, Sum.inr.injEq] at hp
    rcases hp with hp | rfl | hp
    · cases htop : left.top? with
      | none => cases left <;> simp_all [top?, items]
      | some q =>
        have hq : op.level ≤ q.level := hleft q htop
        have hqp : q.level ≤ p.level := ihl hl htop hp
        omega
    · exact Nat.le_refl _
    · cases htop : right.top? with
      | none => cases right <;> simp_all [top?, items]
      | some q =>
        have hq : op.level < q.level := hright q htop
        have hqp : q.level ≤ p.level := ihr hr htop hp
        omega

/-- The operators on the right of the one on top bind tighter. -/
theorem level_top_lt {left right : OpTree α} {op p : BinaryOp}
    (h : (node left op right).WellBound) (hp : .inr p ∈ right.items) : op.level < p.level := by
  obtain ⟨-, hright, -, hr⟩ := h
  cases htop : right.top? with
  | none => cases right <;> simp_all [top?, items]
  | some q =>
    have hq : op.level < q.level := hright q htop
    have hqp : q.level ≤ p.level := level_top_le hr htop hp
    omega

theorem items_ne_nil (tree : OpTree α) : tree.items ≠ [] := by
  cases tree <;> simp [items]

/-- The operator on top of a well-bound tree is the last one of the loosest of its sequence, so
two such trees of one sequence are cut at the same operator. -/
theorem items_cut {l l' r r' : OpTree α} {o o' : BinaryOp} (h : (node l o r).WellBound)
    (h' : (node l' o' r').WellBound) (hitems : (node l o r).items = (node l' o' r').items) :
    l.items = l'.items ∧ o = o' ∧ r.items = r'.items := by
  -- Were one cut further to the left, its operator would bind both no tighter and tighter.
  have hcut {m : List (α ⊕ BinaryOp)} {s t s' t' : OpTree α} {p p' : BinaryOp}
      (hp : (node s p t).WellBound) (hp' : (node s' p' t').WellBound)
      (hleft : s'.items = s.items ++ .inr p :: m) (hright : t.items = m ++ .inr p' :: t'.items) :
      False := by
    have hle : p'.level ≤ p.level :=
      level_top_le hp' rfl (by simp [items, hleft])
    have hlt : p.level < p'.level := level_top_lt hp (by simp [hright])
    omega
  simp only [items] at hitems
  rcases List.append_eq_append_iff.mp hitems with ⟨m, hl', hr⟩ | ⟨m, hl, hr'⟩
  · cases m with
    | nil =>
      simp only [List.append_nil, List.nil_append, List.cons.injEq, Sum.inr.injEq] at hl' hr
      exact ⟨hl'.symm, hr.1, hr.2⟩
    | cons x m =>
      simp only [List.cons_append, List.cons.injEq] at hr
      obtain ⟨rfl, hr⟩ := hr
      exact (hcut h h' hl' hr).elim
  · cases m with
    | nil =>
      simp only [List.append_nil, List.nil_append, List.cons.injEq, Sum.inr.injEq] at hl hr'
      exact ⟨hl, hr'.1.symm, hr'.2.symm⟩
    | cons x m =>
      simp only [List.cons_append, List.cons.injEq] at hr'
      obtain ⟨rfl, hr'⟩ := hr'
      exact (hcut h' h hl hr').elim

/-- **A sequence has one well-bound tree.** -/
theorem eq_of_items {s t : OpTree α} (hs : s.WellBound) (ht : t.WellBound)
    (h : s.items = t.items) : s = t := by
  induction s generalizing t with
  | operand a =>
    cases t with
    | operand b => simpa [items] using h
    | node l o r =>
      have hne := items_ne_nil l
      cases hl : l.items with
      | nil => exact absurd hl hne
      | cons x xs => simp [items, hl] at h
  | node l o r ihl ihr =>
    cases t with
    | operand b =>
      have hne := items_ne_nil l
      cases hl : l.items with
      | nil => exact absurd hl hne
      | cons x xs => simp [items, hl] at h
    | node l' o' r' =>
      obtain ⟨hleft, rfl, hright⟩ := items_cut hs ht h
      rw [ihl hs.2.2.1 ht.2.2.1 hleft, ihr hs.2.2.2 ht.2.2.2 hright]

/-! ## Changing the operands -/

/-- The operands changed, the operators kept. -/
def map (f : α → β) : OpTree α → OpTree β
  | operand a => operand (f a)
  | node left op right => node (left.map f) op (right.map f)

theorem map_attach (f : α → β) (tree : OpTree α) (op : BinaryOp) (b : α) :
    (tree.attach op b).map f = (tree.map f).attach op (f b) := by
  induction tree with
  | operand a => rfl
  | node left o right _ ih =>
    by_cases h : o.level < op.level <;> simp [attach, map, h, ih]

/-- Operators and operands in turn, the operands changed. -/
def mapSteps (f : α → β) (steps : List (BinaryOp × α)) : List (BinaryOp × β) :=
  steps.map fun step => (step.1, f step.2)

theorem map_ofSequence (f : α → β) (first : α) (rest : List (BinaryOp × α)) :
    (ofSequence first rest).map f = ofSequence (f first) (mapSteps f rest) := by
  have hfoldl : ∀ tree : OpTree α,
      (rest.foldl (fun tree (op, value) => tree.attach op value) tree).map f =
        (mapSteps f rest).foldl (fun tree (op, value) => tree.attach op value) (tree.map f) := by
    induction rest with
    | nil => exact fun _ => rfl
    | cons step rest ih =>
      intro tree
      rw [List.foldl_cons, ih, map_attach]
      rfl
  exact hfoldl (operand first)

/-! ## All operands -/

def All (P : α → Prop) : OpTree α → Prop
  | operand a => P a
  | node left _ right => left.All P ∧ right.All P

theorem all_attach {P : α → Prop} {tree : OpTree α} (h : tree.All P) (op : BinaryOp) {b : α}
    (hb : P b) : (tree.attach op b).All P := by
  induction tree with
  | operand a => exact ⟨h, hb⟩
  | node left o right _ ih =>
    by_cases ho : o.level < op.level
    · simp only [attach, if_pos ho]
      exact ⟨h.1, ih h.2⟩
    · simp only [attach, if_neg ho]
      exact ⟨h, hb⟩

theorem all_ofSequence {P : α → Prop} {first : α} {rest : List (BinaryOp × α)} (hfirst : P first)
    (hrest : ∀ step ∈ rest, P step.2) : (ofSequence first rest).All P := by
  have hfoldl : ∀ tree : OpTree α, tree.All P →
      (rest.foldl (fun tree (op, value) => tree.attach op value) tree).All P := by
    induction rest with
    | nil => exact fun _ h => h
    | cons step rest ih =>
      intro tree h
      exact ih (fun s hs => hrest s (List.mem_cons_of_mem step hs)) _
        (all_attach h step.1 (hrest step List.mem_cons_self))
  exact hfoldl (operand first) hfirst

end JsonTemplate.OpTree
