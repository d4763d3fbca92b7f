/-
Where the nodes of a tree stand among the tokens it was read from. Operators before an operand all
span the same, so only the first of them has tokens that are a phrase of it; the others are
`Covered` by one before. Each other node is what a phrase of its own stands for, and its span covers
that phrase but for brackets around it (`Stands`, `phrased_stands`).
-/
import JsonTemplate.Proofs.Frames
import JsonTemplate.Proofs.Nodes

namespace JsonTemplate.Reader

/-- What the span of a phrase covers, if it has one. What was put after an operand last ends where
the reader says. -/
def Phrase.Framed : (p : Phrase) → List Token → Nat → p.Result → Prop
  | choice, T, next, e | operand, T, next, e | primary, T, next, e =>
    Reader.Framed T next (Expr.span e)
  | tree, T, next, t => Reader.Framed T next (OpTree.toExpr t).span
  | chain, T, next, (e, stop) => Reader.Framed T next e.span ∧
      ∀ n ∈ stop, n ≤ next ∧ ∀ token ∈ T, token.span.stop ≤ n
  | element _, _, _, _ | elements _, _, _, _ => True

/-- The operators of a tree are put together by how tightly they bind. -/
def Phrase.Bound : (p : Phrase) → p.Result → Prop
  | tree, t => OpTree.WellBound t
  | _, _ => True

/-- A node is the operand of an operator of the tree that spans the same. -/
def Covered (nodes : List Expr) (n : Expr) : Prop := ∃ op, .unary n.span op n ∈ nodes

/-- Some of the tokens are a phrase of a node, and its span covers them but for brackets around
them. -/
def Stands (tokens : List Token) (n : Expr) : Prop :=
  ∃ before T b after, tokens = before ++ (T ++ b :: after) ∧ Phrased .choice T b.span.start n ∧
    Headed T b.span.start n.span

/-- Every node of a tree stands among the tokens, but for those that an operator covers. -/
def AllStand (tokens : List Token) (nodes : List Expr) (e : Expr) : Prop :=
  ∀ n ∈ e.nodes, Covered nodes n ∨ Stands tokens n

/-- What is known of a phrase among the tokens, if the nodes of its trees are among the given. -/
structure Known (tokens : List Token) (nodes : List Expr) (p : Phrase) (T : List Token)
    (next : Nat) (r : p.Result) : Prop where
  framed : p.Framed T next r
  stand : ∀ e ∈ p.trees r, AllStand tokens nodes e

section Rules

variable {tokens before after : List Token} {nodes : List Expr} {T U V S O : List Token}
  {next : Nat} {b : Token} {e : Expr} {stop : Option Nat}

/-- A phrase of its own stands for a tree, and so for each of its parts. -/
theorem allStand_of_parts (htokens : tokens = before ++ (T ++ b :: after))
    (hphrased : Phrased .choice T b.span.start e) (hheaded : Headed T b.span.start e.span)
    (hparts : ∀ part ∈ e.parts, AllStand tokens nodes part) : AllStand tokens nodes e := by
  intro n hn
  rw [Expr.nodes_eq, List.mem_cons, List.mem_flatMap] at hn
  rcases hn with rfl | ⟨part, hpart, hn⟩
  · exact .inr ⟨before, T, b, after, htokens, hphrased, hheaded⟩
  · exact hparts part hpart n hn

theorem nodes_subset_of_parts {es : List Expr} (h : e.nodes ⊆ nodes) (hes : es ⊆ e.parts) :
    ∀ part ∈ es, part.nodes ⊆ nodes :=
  fun _ hpart _ hn => h (Expr.nodes_subset_of_part (hes hpart) hn)

/-- An operand without operators before it or around it is a phrase on its own. -/
theorem phrased_chain (h : Phrased .chain T next (e, stop)) : Phrased .choice T next e :=
  .plain (.leaf (@Phrased.operand [] [] T next stop e .nil h)) trivial

theorem phrased_primary (h : Phrased .primary T next e) : Phrased .choice T next e :=
  phrased_chain (.first h)

theorem applyUnary_cases (span : Span) (op : UnaryOp) (e : Expr) :
    (applyUnary span op e).nodes = [applyUnary span op e] ∨
      applyUnary span op e = .unary span op e := by
  unfold applyUnary
  split
  · exact .inl rfl
  · exact .inr rfl

/-- The nodes of an operand with operators before it. -/
theorem nodes_foldr_applyUnary {span : Span} {op : UnaryOp} {ops : List UnaryOp}
    (h : ((op :: ops).foldr (applyUnary span) e).nodes ⊆ nodes) :
    ∀ n ∈ ((op :: ops).foldr (applyUnary span) e).nodes,
      n = (op :: ops).foldr (applyUnary span) e ∨ Covered nodes n ∨
        n ∈ e.nodes ∧ e.nodes ⊆ nodes := by
  induction ops generalizing op with
  | nil =>
    intro n hn
    rw [List.foldr_cons, List.foldr_nil] at h hn ⊢
    rcases applyUnary_cases span op e with hleaf | hnode
    · rw [hleaf] at hn
      exact .inl (List.mem_singleton.mp hn)
    · rw [hnode, Expr.nodes] at h hn
      rw [hnode]
      exact (List.mem_cons.mp hn).imp_right
        fun hn => .inr ⟨hn, fun m hm => h (List.mem_cons_of_mem _ hm)⟩
  | cons op' ops ih =>
    intro n hn
    rw [List.foldr_cons] at h hn ⊢
    rcases applyUnary_cases span op ((op' :: ops).foldr (applyUnary span) e) with hleaf | hnode
    · rw [hleaf] at hn
      exact .inl (List.mem_singleton.mp hn)
    · rw [hnode, Expr.nodes] at h hn
      rw [hnode]
      refine (List.mem_cons.mp hn).imp_right fun hn => ?_
      rcases ih (fun m hm => h (List.mem_cons_of_mem _ hm)) n hn with rfl | hrest
      · -- The operator before covers this one.
        refine .inl ⟨op, ?_⟩
        rw [List.foldr_cons, span_applyUnary]
        exact h List.mem_cons_self
      · exact hrest

/-! ## What each rule keeps -/

/-- What is to be shown of a phrase, wherever it is among the tokens. -/
def Keeps (tokens : List Token) (p : Phrase) (T : List Token) (next : Nat) (r : p.Result) : Prop :=
  ∀ nodes before b after, tokens = before ++ (T ++ b :: after) → b.span.start = next →
    (∀ e ∈ p.trees r, e.nodes ⊆ nodes) → p.Bound r → Known tokens nodes p T next r

variable {key yes no : Expr} {l r t : OpTree Expr} {dot word left right : Span} {name : String}

/-- The rest of the tokens are in a row. -/
theorem row_after {rest : List Token} (hrow : tokens.Pairwise Before)
    (h : tokens = before ++ rest) : rest.Pairwise Before :=
  (List.pairwise_append.mp (h ▸ hrow)).2.1

section Row

variable (hrow : tokens.Pairwise Before)
include hrow

theorem keeps_choice {question colon : Span} (h : Phrased .tree T question.start t)
    (hbound : t.WellBound) (hyes : Phrased .choice U colon.start yes)
    (hno : Phrased .choice V next no) (ih : Keeps tokens .tree T question.start t)
    (ihyes : Keeps tokens .choice U colon.start yes) (ihno : Keeps tokens .choice V next no) :
    Keeps tokens .choice (T ++ ⟨.mark '?', question⟩ :: (U ++ ⟨.mark ':', colon⟩ :: V)) next
      (.conditional ⟨startOf T, next⟩ t.toExpr yes no) := by
  rintro nodes before b after htokens rfl hnodes _
  have hnodes := hnodes _ (List.mem_singleton.mpr rfl)
  have hphrased := Phrased.choice h hbound hyes hno
  have hbefore := before_of_row (row_after hrow htokens)
  have hheaded : Headed (T ++ ⟨.mark '?', question⟩ :: (U ++ ⟨.mark ':', colon⟩ :: V)) b.span.start
      ⟨startOf T, b.span.start⟩ :=
    headed_whole hphrased.starts (h.starts.startOf_append _).symm
      (fun token htoken => (hbefore token htoken).2) (Nat.le_refl _)
  have hcondition := (ih nodes before ⟨.mark '?', question⟩
    (U ++ ⟨.mark ':', colon⟩ :: (V ++ b :: after)) (by simpa using htokens) rfl
    (nodes_subset_of_parts hnodes (by simp [Phrase.trees, Expr.parts])) hbound).stand
  have hyes := (ihyes nodes (before ++ (T ++ [⟨.mark '?', question⟩])) ⟨.mark ':', colon⟩
    (V ++ b :: after) (by simpa using htokens) rfl
    (nodes_subset_of_parts hnodes (by simp [Phrase.trees, Expr.parts])) trivial).stand
  have hno := (ihno nodes (before ++ (T ++ ⟨.mark '?', question⟩ :: (U ++ [⟨.mark ':', colon⟩])))
    b after (by simpa using htokens) rfl
    (nodes_subset_of_parts hnodes (by simp [Phrase.trees, Expr.parts])) trivial).stand
  have hstands : AllStand tokens nodes
      (.conditional ⟨startOf T, b.span.start⟩ t.toExpr yes no) := by
    refine allStand_of_parts htokens hphrased hheaded ?_
    simp_all [Phrase.trees, Expr.parts]
  exact ⟨hheaded.framed, List.forall_mem_singleton.mpr hstands⟩

omit hrow in
theorem keeps_leaf (ih : Keeps tokens .operand T next e) :
    Keeps tokens .tree T next (.operand e) := by
  intro nodes before b after htokens hnext hnodes _
  obtain ⟨hframed, hstand⟩ := ih nodes before b after htokens hnext hnodes trivial
  exact ⟨hframed, hstand⟩

theorem keeps_node {op : BinaryOp} (hl : Phrased .tree T (startOf S) l)
    (hop : (Lexeme.operator op).Tokens S) (hr : Phrased .tree U next r)
    (ihl : Keeps tokens .tree T (startOf S) l) (ihr : Keeps tokens .tree U next r) :
    Keeps tokens .tree (T ++ (S ++ U)) next (.node l op r) := by
  rintro nodes before b after htokens rfl hnodes hbound
  have hnodes := hnodes _ (List.mem_singleton.mpr rfl)
  have hparts : (OpTree.node l op r).toExpr.parts = [l.toExpr, r.toExpr] := rfl
  obtain ⟨sign, signs, rfl⟩ := List.exists_cons_of_length_pos (length_operator hop)
  obtain ⟨hframedl, hl'⟩ := ihl nodes before sign (signs ++ (U ++ b :: after))
    (by simpa using htokens) rfl
    (nodes_subset_of_parts hnodes (by simp [Phrase.trees, hparts])) hbound.2.2.1
  obtain ⟨hframedr, hr'⟩ := ihr nodes (before ++ (T ++ (sign :: signs))) b after
    (by simpa using htokens) rfl
    (nodes_subset_of_parts hnodes (by simp [Phrase.trees, hparts])) hbound.2.2.2
  have hheaded := hframedl.joined (phrased_balanced hl) (List.cons_ne_nil _ _) hframedr
    (row_after hrow htokens)
  have hstands : AllStand tokens nodes (OpTree.node l op r).toExpr := by
    refine allStand_of_parts htokens (.plain (.node hl hop hr) hbound) hheaded ?_
    simp_all [Phrase.trees]
  exact ⟨hheaded.framed, List.forall_mem_singleton.mpr hstands⟩

theorem keeps_operand {ops : List UnaryOp} (hO : Spells (prefixed ops) O)
    (h : Phrased .chain T next (e, stop)) (ih : Keeps tokens .chain T next (e, stop)) :
    Keeps tokens .operand (O ++ T) next
      (ops.foldr (applyUnary ⟨startOf (O ++ T), stop.getD next⟩) e) := by
  rintro nodes before b after htokens rfl hnodes _
  obtain _ | ⟨op, ops⟩ := ops
  · obtain rfl := hO.of_nil
    obtain ⟨⟨hframed, -⟩, hstand⟩ := ih nodes before b after htokens rfl hnodes trivial
    exact ⟨hframed, hstand⟩
  have hphrased := Phrased.operand hO h
  have hchain (nodes : List Expr) (hnodes : e.nodes ⊆ nodes) :=
    ih nodes (before ++ O) b after (by simpa using htokens) rfl
      (List.forall_mem_singleton.mpr hnodes) trivial
  obtain ⟨-, hstop⟩ := (hchain e.nodes (List.Subset.refl _)).framed
  have hbefore := before_of_row (row_after hrow htokens)
  -- The span goes to the end of what was put after the operand last, or else to the next token.
  have hend : (∀ token ∈ O ++ T, token.span.stop ≤ stop.getD b.span.start) ∧
      stop.getD b.span.start ≤ b.span.start := by
    cases stop with
    | none => exact ⟨fun token htoken => (hbefore token htoken).2, Nat.le_refl _⟩
    | some n =>
      obtain ⟨hn, hT⟩ := hstop n rfl
      refine ⟨List.forall_mem_append.mpr ⟨fun token htoken => ?_, hT⟩, hn⟩
      obtain ⟨first, rest, rfl⟩ := List.exists_cons_of_ne_nil h.starts.ne_nil
      have hrow' : (O ++ first :: (rest ++ b :: after)).Pairwise Before := by
        simpa using row_after hrow htokens
      have hfirst := hT first List.mem_cons_self
      have hO := before_of_row hrow' token htoken
      have hpositive := hbefore first (by simp)
      show token.span.stop ≤ n
      omega
  have hheaded := headed_whole (s := ⟨startOf (O ++ T), stop.getD b.span.start⟩) hphrased.starts rfl
    hend.1 hend.2
  have hspan : ((op :: ops).foldr
      (applyUnary ⟨startOf (O ++ T), stop.getD b.span.start⟩) e).span =
      ⟨startOf (O ++ T), stop.getD b.span.start⟩ := span_applyUnary _ _ _
  rw [← hspan] at hheaded
  refine ⟨hheaded.framed, List.forall_mem_singleton.mpr fun n hn => ?_⟩
  rcases nodes_foldr_applyUnary (hnodes _ (List.mem_singleton.mpr rfl)) n hn with
    rfl | hcovered | ⟨hn, hsubset⟩
  · exact .inr ⟨before, _, b, after, htokens, .plain (.leaf hphrased) trivial, hheaded⟩
  · exact .inl hcovered
  · exact (hchain nodes hsubset).stand e (List.mem_singleton.mpr rfl) n hn

/-! ### Chains -/

omit hrow in
theorem keeps_first (ih : Keeps tokens .primary T next e) :
    Keeps tokens .chain T next (e, none) := by
  intro nodes before b after htokens hnext hnodes _
  obtain ⟨hframed, hstand⟩ := ih nodes before b after htokens hnext hnodes trivial
  exact ⟨⟨hframed, nofun⟩, hstand⟩

/-- More put after an operand, from a first to a last token. Its span starts at one of them. -/
theorem keeps_more (first : Token) (V : List Token) (last : Token) {e' : Expr} {v : Span}
    {others : List Expr} (h : Phrased .chain T first.span.start (e, stop))
    (h' : Phrased .chain (T ++ (first :: V ++ [last])) next (e', some last.span.stop))
    (ih : Keeps tokens .chain T first.span.start (e, stop)) (hspan : e'.span = e.span.merge v)
    (hfrom : ∃ token ∈ first :: V ++ [last], v.start = token.span.start)
    (hstop : v.stop = last.span.stop) (hparts : e'.parts = e :: others)
    (hothers : ∀ nodes before b after,
      tokens = before ++ (T ++ (first :: V ++ [last]) ++ b :: after) →
      (∀ part ∈ others, part.nodes ⊆ nodes) → ∀ part ∈ others, AllStand tokens nodes part) :
    Keeps tokens .chain (T ++ (first :: V ++ [last])) next (e', some last.span.stop) := by
  rintro nodes before b after htokens rfl hnodes _
  have hnodes := hnodes _ (List.mem_singleton.mpr rfl)
  have hrow := row_after hrow htokens
  have hbefore := before_of_row hrow
  have hlast : ∀ token ∈ T ++ (first :: V ++ [last]), token.span.stop ≤ last.span.stop := by
    rw [← List.append_assoc]
    exact stop_le_last (by simpa using hrow)
  obtain ⟨⟨hframed, -⟩, hstand⟩ := ih nodes before first (V ++ last :: b :: after)
    (by simpa using htokens) rfl
    (nodes_subset_of_parts hnodes (by simp [Phrase.trees, hparts])) trivial
  have hothers := hothers nodes before b after htokens
    (nodes_subset_of_parts hnodes (by simp [hparts]))
  -- The first token starts before each of them.
  obtain ⟨token, htoken, hstart⟩ := hfrom
  have hfirst : first.span.start ≤ token.span.start := by
    rcases List.mem_cons.mp htoken with rfl | htoken
    · exact Nat.le_refl _
    · have hpair := (List.pairwise_append.mp ((List.append_assoc _ _ _) ▸ hrow)).2.1
      have hfirst := (List.pairwise_cons.mp hpair).1 token (List.mem_append_left _ htoken)
      exact Nat.le_trans (Nat.le_of_lt hfirst.1) hfirst.2
  have hpositive := hbefore token (List.mem_append_right _ htoken)
  have hend := hlast token (List.mem_append_right _ htoken)
  have hheaded := hframed.extended (v := v) (phrased_balanced h) hrow (by omega) (by omega) hstop
  rw [← hspan] at hheaded
  refine ⟨⟨hheaded.framed, ?_⟩, List.forall_mem_singleton.mpr ?_⟩
  · rintro n ⟨⟩
    exact ⟨(hbefore last (by simp)).2, hlast⟩
  · refine allStand_of_parts htokens (phrased_chain h') hheaded ?_
    rw [hparts, List.forall_mem_cons]
    exact ⟨hstand e (List.mem_singleton.mpr rfl), hothers⟩

theorem keeps_field (h : Phrased .chain T dot.start (e, stop))
    (ih : Keeps tokens .chain T dot.start (e, stop)) :
    Keeps tokens .chain (T ++ [⟨.mark '.', dot⟩, ⟨.word name, word⟩]) next
      (.select (e.span.merge word) e name, some word.stop) :=
  keeps_more hrow ⟨.mark '.', dot⟩ [] ⟨.word name, word⟩ h (.field h) ih rfl
    ⟨⟨.word name, word⟩, by simp, rfl⟩ rfl rfl (fun _ _ _ _ _ _ => List.forall_mem_nil _)

theorem keeps_method {args : List Expr} (h : Phrased .chain T dot.start (e, stop))
    (hargs : Phrased (.elements .item) U right.start args)
    (ih : Keeps tokens .chain T dot.start (e, stop))
    (ihargs : Keeps tokens (.elements .item) U right.start args) :
    Keeps tokens .chain (T ++ ⟨.mark '.', dot⟩ :: ⟨.word name, word⟩ :: ⟨.mark '(', left⟩ ::
      (U ++ [⟨.mark ')', right⟩])) next
      (.call (e.span.merge ⟨word.start, right.stop⟩) (some e) name args, some right.stop) := by
  refine keeps_more hrow ⟨.mark '.', dot⟩ (⟨.word name, word⟩ :: ⟨.mark '(', left⟩ :: U)
    ⟨.mark ')', right⟩ h (.method h hargs) ih rfl ⟨⟨.word name, word⟩, by simp, rfl⟩ rfl rfl ?_
  intro nodes before b after htokens hnodes
  have hknown := ihargs nodes
    (before ++ (T ++ [⟨.mark '.', dot⟩, ⟨.word name, word⟩, ⟨.mark '(', left⟩]))
    ⟨.mark ')', right⟩ (b :: after) (by simpa using htokens) rfl
    (by rwa [Phrase.trees_items]) trivial
  have hstand := hknown.stand
  rw [Phrase.trees_items] at hstand
  exact hstand

theorem keeps_index {i : Expr} (h : Phrased .chain T left.start (e, stop))
    (hi : Phrased .choice U right.start i) (ih : Keeps tokens .chain T left.start (e, stop))
    (ihindex : Keeps tokens .choice U right.start i) :
    Keeps tokens .chain (T ++ ⟨.mark '[', left⟩ :: (U ++ [⟨.mark ']', right⟩])) next
      (.index (e.span.merge ⟨left.start, right.stop⟩) e i, some right.stop) := by
  refine keeps_more hrow ⟨.mark '[', left⟩ U ⟨.mark ']', right⟩ h (.index h hi) ih rfl
    ⟨⟨.mark '[', left⟩, by simp, rfl⟩ rfl rfl ?_
  intro nodes before b after htokens hnodes
  exact (ihindex nodes (before ++ (T ++ [⟨.mark '[', left⟩])) ⟨.mark ']', right⟩ (b :: after)
    (by simpa using htokens) rfl hnodes trivial).stand

/-! ### Operands without operators before them or parts after them -/

/-- A tree that spans from a first to a last token. -/
theorem keeps_primary (last : Token) (h : Phrased .primary (T ++ [last]) next e)
    (hspan : e.span = ⟨startOf (T ++ [last]), last.span.stop⟩)
    (hothers : ∀ nodes before b after, tokens = before ++ (T ++ [last] ++ b :: after) →
      (∀ part ∈ e.parts, part.nodes ⊆ nodes) → ∀ part ∈ e.parts, AllStand tokens nodes part) :
    Keeps tokens .primary (T ++ [last]) next e := by
  rintro nodes before b after htokens rfl hnodes _
  have hrow := row_after hrow htokens
  have hheaded : Headed (T ++ [last]) b.span.start e.span := by
    rw [hspan]
    exact headed_whole h.starts rfl (stop_le_last hrow) (before_of_row hrow last (by simp)).2
  refine ⟨hheaded.framed, List.forall_mem_singleton.mpr ?_⟩
  refine allStand_of_parts htokens (phrased_primary h) hheaded
    (hothers nodes before b after htokens ?_)
  exact nodes_subset_of_parts (hnodes e (List.mem_singleton.mpr rfl)) (List.Subset.refl _)

theorem keeps_constant {form : Token.Form} {v : Literal} {span : Span}
    (h : constant? form = some v) :
    Keeps tokens .primary [⟨form, span⟩] next (.literal span v) :=
  keeps_primary hrow (T := []) ⟨form, span⟩ (.constant h) rfl
    fun _ _ _ _ _ _ => List.forall_mem_nil _

theorem keeps_name (h : name ∉ keywords) :
    Keeps tokens .primary [⟨.word name, word⟩] next (.ident word name) :=
  keeps_primary hrow (T := []) ⟨.word name, word⟩ (.name h) rfl
    fun _ _ _ _ _ _ => List.forall_mem_nil _

/-- A tree whose parts are elements before a last token. -/
theorem keeps_elements {el : Element} {as : List el.Result} (O : List Token) (last : Token)
    (h : Phrased .primary (O ++ (U ++ [last])) next e)
    (hspan : e.span = ⟨startOf (O ++ (U ++ [last])), last.span.stop⟩)
    (hparts : e.parts = (Phrase.elements el).trees as)
    (ih : Keeps tokens (.elements el) U last.span.start as) :
    Keeps tokens .primary (O ++ (U ++ [last])) next e := by
  rw [← List.append_assoc] at h hspan ⊢
  refine keeps_primary hrow last h hspan fun nodes before b after htokens hnodes => ?_
  rw [hparts] at hnodes ⊢
  exact (ih nodes (before ++ O) last (b :: after) (by simpa using htokens) rfl hnodes trivial).stand

theorem keeps_call {args : List Expr} (h : name ∉ keywords)
    (hargs : Phrased (.elements .item) U right.start args)
    (ih : Keeps tokens (.elements .item) U right.start args) :
    Keeps tokens .primary (⟨.word name, word⟩ :: ⟨.mark '(', left⟩ :: (U ++ [⟨.mark ')', right⟩]))
      next (.call ⟨word.start, right.stop⟩ none name args) :=
  keeps_elements hrow [⟨.word name, word⟩, ⟨.mark '(', left⟩] ⟨.mark ')', right⟩ (.call h hargs) rfl
    (Phrase.trees_items _).symm ih

theorem keeps_list {es : List Expr} (h : Phrased (.elements .item) U right.start es)
    (ih : Keeps tokens (.elements .item) U right.start es) :
    Keeps tokens .primary (⟨.mark '[', left⟩ :: (U ++ [⟨.mark ']', right⟩])) next
      (.list ⟨left.start, right.stop⟩ es) :=
  keeps_elements hrow [⟨.mark '[', left⟩] ⟨.mark ']', right⟩ (.list h) rfl
    (Phrase.trees_items _).symm ih

theorem keeps_dict {entries : List (Expr × Expr)}
    (h : Phrased (.elements .entry) U right.start entries)
    (ih : Keeps tokens (.elements .entry) U right.start entries) :
    Keeps tokens .primary (⟨.mark '\x7b', left⟩ :: (U ++ [⟨.mark '\x7d', right⟩])) next
      (.dict ⟨left.start, right.stop⟩ entries) :=
  keeps_elements hrow [⟨.mark '\x7b', left⟩] ⟨.mark '\x7d', right⟩ (.dict h) rfl rfl ih

theorem keeps_group (ih : Keeps tokens .choice U right.start e) :
    Keeps tokens .primary (⟨.mark '(', left⟩ :: (U ++ [⟨.mark ')', right⟩])) next e := by
  rintro nodes before b after htokens rfl hnodes _
  obtain ⟨hframed, hstand⟩ := ih nodes (before ++ [⟨.mark '(', left⟩]) ⟨.mark ')', right⟩
    (b :: after) (by simpa using htokens) rfl hnodes trivial
  have hinside : Framed U (Token.span ⟨.mark ')', right⟩).start e.span := hframed
  exact ⟨hinside.enclosed rfl rfl (row_after hrow htokens), hstand⟩

/-! ### Elements -/

omit hrow

theorem keeps_item (ih : Keeps tokens .choice T next e) :
    Keeps tokens (.element .item) T next e := by
  intro nodes before b after htokens hnext hnodes _
  exact ⟨trivial, (ih nodes before b after htokens hnext hnodes trivial).stand⟩

theorem keeps_entry {colon : Span} (ihkey : Keeps tokens .choice T colon.start key)
    (ih : Keeps tokens .choice U next e) :
    Keeps tokens (.element .entry) (T ++ ⟨.mark ':', colon⟩ :: U) next (key, e) := by
  intro nodes before b after htokens hnext hnodes _
  obtain ⟨hkey, he⟩ := List.forall_mem_cons.mp hnodes
  have hkey := ihkey nodes before ⟨.mark ':', colon⟩ (U ++ b :: after) (by simpa using htokens) rfl
    (List.forall_mem_singleton.mpr hkey) trivial
  have he := ih nodes (before ++ (T ++ [⟨.mark ':', colon⟩])) b after (by simpa using htokens) hnext
    he trivial
  exact ⟨trivial, List.forall_mem_append.mpr ⟨hkey.stand, he.stand⟩⟩

variable {el : Element} {a : el.Result} {as : List el.Result}

theorem keeps_last (ih : Keeps tokens (.element el) T next a) :
    Keeps tokens (.elements el) T next [a] := by
  intro nodes before b after htokens hnext hnodes _
  have hsame : (Phrase.elements el).trees [a] = (Phrase.element el).trees a := by
    simp [Phrase.trees]
  rw [hsame] at hnodes
  refine ⟨trivial, ?_⟩
  rw [hsame]
  exact (ih nodes before b after htokens hnext hnodes trivial).stand

theorem keeps_moreElements {comma : Span} (ih : Keeps tokens (.element el) T comma.start a)
    (ihothers : Keeps tokens (.elements el) U next as) :
    Keeps tokens (.elements el) (T ++ ⟨.mark ',', comma⟩ :: U) next (a :: as) := by
  intro nodes before b after htokens hnext hnodes _
  obtain ⟨hfirst, hothers⟩ := List.forall_mem_append.mp hnodes
  have hfirst := ih nodes before ⟨.mark ',', comma⟩ (U ++ b :: after) (by simpa using htokens) rfl
    hfirst trivial
  have hothers := ihothers nodes (before ++ (T ++ [⟨.mark ',', comma⟩])) b after
    (by simpa using htokens) hnext hothers trivial
  exact ⟨trivial, List.forall_mem_append.mpr ⟨hfirst.stand, hothers.stand⟩⟩

end Row

end Rules

/-- **Every node of a phrase among the tokens stands there, but for those that an operator before
an operand covers.** -/
theorem phrased_keeps {tokens : List Token} (hrow : tokens.Pairwise Before) {p : Phrase}
    {T : List Token} {next : Nat} {r : p.Result} (h : Phrased p T next r) :
    Keeps tokens p T next r := by
  induction h with
  | plain _ hbound ih =>
    intro nodes before b after htokens hnext hnodes _
    obtain ⟨hframed, hstand⟩ := ih nodes before b after htokens hnext hnodes hbound
    exact ⟨hframed, hstand⟩
  | choice h hbound hyes hno ih ihyes ihno =>
    exact keeps_choice hrow h hbound hyes hno ih ihyes ihno
  | leaf _ ih => exact keeps_leaf ih
  | node hl hop hr ihl ihr => exact keeps_node hrow hl hop hr ihl ihr
  | operand hO h ih => exact keeps_operand hrow hO h ih
  | first _ ih => exact keeps_first ih
  | field h ih => exact keeps_field hrow h ih
  | method h hargs ih ihargs => exact keeps_method hrow h hargs ih ihargs
  | index h hi ih ihindex => exact keeps_index hrow h hi ih ihindex
  | constant h => exact keeps_constant hrow h
  | name h => exact keeps_name hrow h
  | call h hargs ih => exact keeps_call hrow h hargs ih
  | group _ ih => exact keeps_group hrow ih
  | list h ih => exact keeps_list hrow h ih
  | dict h ih => exact keeps_dict hrow h ih
  | item _ ih => exact keeps_item ih
  | entry _ _ ihkey ih => exact keeps_entry ihkey ih
  | none => exact fun _ _ _ _ _ _ _ _ => ⟨trivial, List.forall_mem_nil _⟩
  | last _ ih => exact keeps_last ih
  | more _ _ ih ihothers => exact keeps_moreElements ih ihothers

end JsonTemplate.Reader
