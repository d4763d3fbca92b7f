/-
Descriptions of environments, programs and options for people who look into them: what is
declared by name, never what is behind it.
-/
import JsonTemplate.Template.Basic
import JsonTemplate.Text.Quoted

namespace JsonTemplate

def ValueType.title : ValueType → String
  | string => "String"
  | number => "Number"
  | bool => "Bool"
  | list => "List"
  | map => "Map"
  | object => "Object"
  | null => "Null"
  | any => "Any"

/-- Named parts of something between braces. -/
def describeFields (name : String) (fields : List (String × String)) : String :=
  name ++ " \x7b " ++ ", ".intercalate (fields.map fun (field, text) => field ++ ": " ++ text)
    ++ " \x7d"

def describeFlag (flag : Bool) : String := if flag then "true" else "false"

/-- Functions are listed by name in the order of code points. -/
def Environment.describe (env : Environment) : String :=
  let declared := env.declared.map fun (name, type) => Text.quoted name ++ ": " ++ type.title
  describeFields "Env" [("registry", describeFields "Registry"
    [("variables", "\x7b" ++ ", ".intercalate declared ++ "\x7d"),
      ("functions", Text.quotedList (env.functions.keys.mergeSort fun a b => decide (a ≤ b))),
      ("types", Text.quotedList env.types.keys),
      ("reject_undeclared", describeFlag env.rejectUndeclared)])]

def Program.describe (p : Program) : String := "Program(" ++ Text.quoted p.source ++ ")"

def TemplateOptions.describe (o : TemplateOptions) : String :=
  describeFields "TemplateOptions"
    [("reference", describeFlag o.reference.isSome),
      ("missing_key_errors", describeFlag o.missingKeyErrors),
      ("strict_errors", describeFlag o.strictErrors),
      ("functions", Text.quotedList (o.functions.map fun f => f.signature.name)),
      ("variables", Text.quotedList o.constants.keys),
      ("fragments", Text.quotedList o.fragments.keys)]

end JsonTemplate
