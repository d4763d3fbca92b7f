/-
Templates. A template is compiled once, with its fragments, and expanded against any number of
inputs. Its expressions see the input as `data` and the reference data as `ref`; fragments see
`ref` and their arguments. Fragments are compiled where `fragment` is no function, so they do not
call each other.
-/
import JsonTemplate.Template.Fragment
import JsonTemplate.Value.Json

namespace JsonTemplate

structure TemplateOptions where
  /-- What `ref` stands for, an empty map if nothing is given. -/
  reference : Option Value
  /-- A missing key ends the expansion. -/
  missingKeyErrors : Bool
  /-- Every failure ends the expansion, and undeclared names are not compiled. -/
  strictErrors : Bool
  functions : List Function
  /-- Values the host gives by name. -/
  constants : Entries Value
  fragments : Entries String

namespace TemplateOptions

def default : TemplateOptions := ⟨none, false, false, [], [], []⟩

def policy (o : TemplateOptions) : ErrorPolicy := ⟨o.missingKeyErrors, o.strictErrors⟩

/-- `remove_property()`, which gives up the entry it appears in. -/
def removeProperty : Function :=
  ⟨⟨"remove_property", [⟨none, []⟩]⟩, fun _ _ _ => .error .removed⟩

/-- What the template and its fragments may both refer to. -/
def sharedEnvironment (o : TemplateOptions) : Environment :=
  let base := ((Environment.standard.declare "ref" .any).register removeProperty).registerType
    .record
  let declared := o.constants.keys.foldl (fun env name => env.declare name .any)
    { base with rejectUndeclared := o.strictErrors }
  declared.registerAll o.functions

def fragmentEnvironment (o : TemplateOptions) : Environment :=
  o.sharedEnvironment.declare "args" .list

/-- What the template and its fragments both see. -/
def baseActivation (o : TemplateOptions) : Activation :=
  Activation.bind ⟨o.constants⟩ "ref" (o.reference.getD (.map []))

/-- The environment of the template itself. -/
def environment (o : TemplateOptions) (fragments : Fragments) : Environment :=
  (o.sharedEnvironment.declare "data" .any).register
    (FragmentCall.function fragments o.baseActivation o.policy)

end TemplateOptions

structure Template where
  root : Tree
  fragments : Fragments
  base : Activation
  policy : ErrorPolicy

/-- Why an expansion gives no text. -/
inductive ExpandFault
  /-- The text of the input is not JSON. -/
  | input (text : String)
  | eval (failure : Failure)
  | write (fault : WriteFault)
  deriving DecidableEq

def ExpandFault.message (wording : Wording) : ExpandFault → String
  | input text => s!"JSON error: {wording.json text}"
  | eval failure => failure.message
  | write fault => s!"JSON error: {fault.message}"

/-- Why a template gives no text when it is compiled and expanded at once. -/
inductive RenderFault
  | compile (fault : TemplateFault)
  | expand (fault : ExpandFault)
  deriving DecidableEq

def RenderFault.message (wording : Wording) : RenderFault → String
  | compile fault => fault.message wording
  | expand fault => fault.message wording

namespace Template

/-- Compiles a template and its fragments, the fragments first. -/
def compile (text : String) (o : TemplateOptions) : Except TemplateFault Template := do
  let fragments ← Fragments.compile o.fragmentEnvironment o.fragments
  let root ← Tree.compile (o.environment fragments) text
  return ⟨root, fragments, o.baseActivation, o.policy⟩

/-- The output for an input, as a value. -/
def expandValue (t : Template) (origin : Origin) (data : Value) : Except Failure Value :=
  t.root.expand t.policy (t.base.bind "data" data).context origin

/-- The output for an input, in a form of it. -/
def expandTo (form : Value → Except WriteFault α) (t : Template) (origin : Origin)
    (data : Document) : Except ExpandFault α :=
  match t.expandValue origin (.ofDocument data) with
  | .error failure => .error (.eval failure)
  | .ok value => (form value).mapError .write

/-- The output for an input document, as JSON text. -/
def expand : Template → Origin → Document → Except ExpandFault String := expandTo Value.toJson

/-- The output for an input given as JSON text, as JSON text. -/
def expandText (t : Template) (origin : Origin) (text : String) : Except ExpandFault String :=
  match Document.read? text with
  | some data => t.expand origin data
  | none => .error (.input text)

/-- The output for an input document, as a document. -/
def expandDocument : Template → Origin → Document → Except ExpandFault Document :=
  expandTo Value.toDocument

end Template

/-- Compiles a template and expands it once. -/
def renderWith (o : TemplateOptions) (text : String) (origin : Origin) (data : Document) :
    Except RenderFault String :=
  match Template.compile text o with
  | .error fault => .error (.compile fault)
  | .ok t => (t.expand origin data).mapError .expand

def render : String → Origin → Document → Except RenderFault String := renderWith .default

end JsonTemplate
