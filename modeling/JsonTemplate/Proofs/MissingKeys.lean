/-
Which failures end an expansion that only missing keys may end. A failure counts as a missing key
by its kind or by the phrase in its message, and of all messages over values whose host does not
use the phrase otherwise (`Value.Candid`) only that of an unknown fragment can have it, when the
name of the fragment has (`only_missing_keys_abort`).
-/
import JsonTemplate.Proofs.Answers
import JsonTemplate.Proofs.Expansion
import JsonTemplate.Proofs.Hostless
import JsonTemplate.Proofs.Messages

namespace JsonTemplate

/-! ## Failures and their messages -/

/-- A key is missing, or a fragment whose name has the phrase of a missing key. -/
def Failure.CountsAsMissing (f : Failure) : Prop := f.kind = .noSuchKey ∨ f.cause.Misleading

theorem Failure.isMissingKey_iff {f : Failure} :
    f.isMissingKey = true ↔ f.kind = .noSuchKey ∨ SaysMissing f.message := by
  simp [isMissingKey, SaysMissing]

/-- What stopped an evaluation has the phrase of a missing key only if it counts as one. -/
def Interrupt.Candid : Interrupt → Prop
  | removed => True
  | failed f => SaysMissing f.message → f.CountsAsMissing

/-- The host does not use the phrase of a missing key: not in the name of a type, nor in the
message of a failure of another kind. -/
def Value.Candid (v : Value) : Prop :=
  v.Hosting (fun type => ¬ SaysMissing type.name)
    (fun f => SaysMissing f.message → f.kind = .noSuchKey)

theorem Value.Candid.typeName {v : Value} (h : v.Candid) : ¬ SaysMissing v.typeName := by
  have hnames : ∀ name ∈ ["null", "bool", "number", "string", "list", "map",
      ObjectType.record.name], ¬ SaysMissing name := by decide +kernel
  cases v with
  | host => exact h.1
  | _ => exact hnames _ (by simp [Value.typeName])

theorem Value.candid_invariant : Invariant Value.Candid Interrupt.Candid where
  toClosed := Value.hosting_closed (fun _ h hphrase => .inl (h hphrase)) fun _ _ h =>
    h.message_saysMissing fun _ => Value.Candid.typeName
  withSpan _ _ h := h

/-! ## Templates -/

theorem isWord_no_space {name : String} (h : IsWord name.toList) : ' ' ∉ name.toList := by
  cases hname : name.toList with
  | nil => exact List.not_mem_nil
  | cons c rest =>
    rw [hname] at h
    intro hspace
    rcases List.mem_cons.mp hspace with rfl | hspace
    · exact absurd h.1 (by decide)
    · exact absurd (h.2 _ hspace) (by decide)

namespace TemplateOptions

/-- What the host gives to a template is candid, and there are no functions. -/
structure Candid (o : TemplateOptions) : Prop where
  functions : o.functions = []
  reference : ∀ v ∈ o.reference, v.Candid
  constants : ∀ pair ∈ o.constants, pair.2.Candid

theorem Candid.hostless {o : TemplateOptions} (h : o.Candid) :
    o.Hostless Value.Candid Interrupt.Candid where
  closed := Value.candid_invariant.toClosed
  functions := h.functions
  reference := h.reference
  constants := h.constants
  removed := trivial
  refused name hname values hvalues hphrase := by
    have hbuiltin : ∀ name ∈ builtin, ¬ SaysMissing ("no such overload: " ++ name) := by
      decide +kernel
    refine absurd hphrase
      (Cause.noSuchOverload_saysMissing (hbuiltin name hname) fun type htype => ?_)
    obtain ⟨v, hv, rfl⟩ := List.mem_map.mp htype
    exact (hvalues v hv).typeName
  undeclared x hx hphrase :=
    absurd hphrase (Cause.undeclaredReference_saysMissing (isWord_no_space hx.1))

end TemplateOptions

section Abort

variable {policy : ErrorPolicy} (hmissing : policy.missingKeys = true) (hall : policy.all = false)

include hmissing hall

/-- Only missing keys are raised, and what counts as one. -/
theorem raises_iff {f : Failure} (hf : Interrupt.Candid (.failed f)) :
    policy.raises f = true ↔ f.CountsAsMissing := by
  rw [ErrorPolicy.raises, hmissing, hall, Bool.false_or, Bool.true_and, Failure.isMissingKey_iff]
  constructor
  · rintro (hkind | hphrase)
    · exact .inl hkind
    · exact hf hphrase
  · rintro (hkind | hname)
    · exact .inl hkind
    · obtain ⟨cause, span, beneath⟩ := f
      cases cause with
      | fragmentNotFound name => exact .inr (Cause.fragmentNotFound_saysMissing.mpr hname)
      | _ => exact hname.elim

/-- An expression that fails ends the expansion if its failure counts as a missing key, and is
left out otherwise. -/
theorem settle_failed {f : Failure} (hf : Interrupt.Candid (.failed f)) :
    (f.CountsAsMissing → Tree.settle policy (.error (.failed f)) = .error f) ∧
      (¬ f.CountsAsMissing → Tree.settle policy (.error (.failed f)) = .ok none) := by
  rw [← raises_iff hmissing hall hf]
  exact ⟨fun hraises => if_pos hraises, fun hraises => if_neg hraises⟩

end Abort

/-- Every failure of an expression of the tree that counts as a missing key ends the expansion,
and every other one leaves the entry out. -/
def Tree.StopsAtMissing (policy : ErrorPolicy) (context : Context) (t : Tree) : Prop :=
  ∀ (origin : Origin), ∀ leaf ∈ t.leaves origin, ∀ f : Failure,
    leaf.outcome context = .error (.failed f) →
      (f.CountsAsMissing → settle policy (leaf.outcome context) = .error f) ∧
        (¬ f.CountsAsMissing → settle policy (leaf.outcome context) = .ok none)

theorem Tree.stopsAtMissing {policy : ErrorPolicy} (hmissing : policy.missingKeys = true)
    (hall : policy.all = false) {context : Context} {t : Tree}
    (h : ∀ origin, ∀ leaf ∈ t.leaves origin,
      Satisfies Value.Candid Interrupt.Candid (leaf.outcome context)) :
    t.StopsAtMissing policy context := by
  intro origin leaf hleaf f hf
  have hcandid := h origin leaf hleaf
  rw [hf] at hcandid ⊢
  exact settle_failed hmissing hall hcandid

/-- **Only missing keys end an expansion under `missingKeyErrors`**, and fragments that are not
there under a name with the phrase of a missing key. Any other failure of an expression, in the
template or in a fragment, leaves its entry out. -/
theorem only_missing_keys_abort (o : TemplateOptions) (text : String) (t : Template)
    (hhost : o.Candid) (hmissing : o.missingKeyErrors = true) (hstrict : o.strictErrors = false)
    (ht : Template.compile text o = .ok t) :
    (∀ data : Document, (Value.ofDocument data).Candid) ∧
    (∀ data : Value, data.Candid →
      (∀ origin f, t.expandValue origin data = .error f → f.CountsAsMissing) ∧
        t.root.StopsAtMissing t.policy (t.base.bind "data" data).context) ∧
    ∀ (name : String) (tree : Tree), t.fragments.get? name = some tree →
      ∀ args : List Value, (∀ arg ∈ args, arg.Candid) →
        tree.StopsAtMissing t.policy (t.base.bind "args" (.list args)).context := by
  have hhostless := hhost.hostless
  obtain ⟨fragments, root, hfragments, hroot, rfl⟩ := Template.compile_eq_ok.mp ht
  refine ⟨Value.ofDocument_hosting, fun data hdata => ⟨fun origin f hf => ?_, ?_⟩,
    fun name tree htree args hargs => ?_⟩
  · obtain ⟨_, -, -, hraises⟩ := Tree.expand_eq_error _ _ hf
    have hcandid := hhostless.expandValue_keeps Value.candid_invariant ht hdata origin
    rw [hf] at hcandid
    exact (raises_iff hmissing hstrict hcandid).mp hraises
  · exact Tree.stopsAtMissing hmissing hstrict fun _ _ => hhostless.leaf_keeps
      Value.candid_invariant (hhostless.environment_equipped Value.candid_invariant hfragments)
      hroot hdata
  · obtain ⟨_, -, hcompile⟩ := Fragments.compile_get? hfragments htree
    exact Tree.stopsAtMissing hmissing hstrict fun _ _ => hhostless.leaf_keeps
      Value.candid_invariant hhostless.fragmentEnvironment_equipped hcompile
      ((hhostless.closed.list args).mpr hargs)

/-- A fragment that is not there ends the expansion by its name; under any other name it would
leave its entry out. -/
theorem unknown_fragment_counts_as_missing :
    let o := { TemplateOptions.default with missingKeyErrors := true }
    (∃ t, Template.compile "\x7b\"f\": \"fragment('no such key')\"\x7d" o = .ok t ∧
      ∃ f, t.expandValue default (.ofDocument (.object [])) = .error f ∧
        f.kind = .fragmentNotFound) ∧
    renderWith o "\x7b\"f\": \"fragment('no such fragment')\"\x7d" default (.object []) =
      .ok "\x7b\x7d" := by
  intro o
  refine ⟨?_, by decide +kernel⟩
  obtain ⟨t, ht⟩ : ∃ t, Template.compile "\x7b\"f\": \"fragment('no such key')\"\x7d" o = .ok t :=
    failure?_eq_none.mp (by decide +kernel)
  have hkind : (Template.compile "\x7b\"f\": \"fragment('no such key')\"\x7d" o).toOption.bind
      (fun t => (failure? (t.expandValue default (.ofDocument (.object [])))).map Failure.kind) =
      some .fragmentNotFound := by decide +kernel
  rw [ht] at hkind
  obtain ⟨f, hf, hkind⟩ := Option.map_eq_some_iff.mp hkind
  exact ⟨t, ht, f, failure?_eq_some.mp hf, hkind⟩

/-- A template whose entries divide by zero, name nothing and call a fragment that fails before one
asks for a key that is not there. -/
theorem only_missing_keys_abort_of_reference :
    let o : TemplateOptions := ⟨some (.map [("y", .null)]), true, false, [], [("limit", .ofNat 3)],
      [("f", "\x7b\"m\": \"[limit][1]\"\x7d")]⟩
    let text := "\x7b\"a\": \"1 / 0\", \"b\": \"nothing\", \"c\": \"fragment('f')\", " ++
      "\"d\": \"ref.x\"\x7d"
    ∃ t, Template.compile text o = .ok t ∧
      (∃ f, t.expandValue default (.ofDocument (.object [])) = .error f) ∧
      ∀ (data : Document) (f : Failure),
        t.expandValue default (.ofDocument data) = .error f → f.CountsAsMissing := by
  intro o text
  obtain ⟨t, ht⟩ : ∃ t, Template.compile text o = .ok t := failure?_eq_none.mp (by decide +kernel)
  have hfails : (Template.compile text o).toOption.all (fun t =>
      (failure? (t.expandValue default (.ofDocument (.object [])))).isSome) = true := by
    decide +kernel
  rw [ht] at hfails
  obtain ⟨f, hf⟩ := Option.isSome_iff_exists.mp hfails
  have hcandid : o.Candid := by
    refine ⟨rfl, fun v hv => ?_, fun pair hpair => ?_⟩
    · cases hv
      exact Value.ofDocument_hosting (.object [("y", .null)])
    · rw [List.mem_singleton.mp hpair]
      exact Value.candid_invariant.number _
  obtain ⟨hdata, hroot, -⟩ := only_missing_keys_abort o text t hcandid rfl rfl ht
  exact ⟨t, ht, ⟨f, failure?_eq_some.mp hf⟩, fun data => (hroot _ (hdata data)).1 default⟩

end JsonTemplate
