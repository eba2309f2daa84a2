import RobotScript.Json.Fields
import RobotScript.Macro.Template
/-!
Macro templates as JSON documents.
-/
namespace RobotScript.Macro

def number? (j : Json) : Option Int :=
  j.int? Bounds.minSigned32 Bounds.maxSigned32

def spareLevels : Nat := 121

namespace ParamKind

def toJson : ParamKind → Json
  | number min max => .ofMembers
    [("type", .ofString "number"), ("min", .ofInt min), ("max", .ofInt max)]
  | text maxLength => .ofMembers [("type", .ofString "string"), ("max_len", .ofInt maxLength)]
  | character => .ofMembers [("type", .ofString "character")]
  | color => .ofMembers [("type", .ofString "color")]

/-- Splits a description into the name of the kind and the rest. The name is the member `type`,
or the first item of an array. -/
def split? : Json → Option (String × Json)
  | .object members => do
    let tag ← (← Json.member? members "type").bind Json.text?
    return (tag, .object (members.filter (·.1 != some "type")))
  | .array (tag :: items) => do return (← tag.text?, .array items)
  | _ => none

/-- Reads the description of a kind. Its parts must be clean also where nobody reads them. -/
def ofJson? (j : Json) : Option ParamKind := do
  let (tag, rest) ← split? j
  if rest.isClean (spareLevels + 1) then
    match tag with
    | "number" =>
      match ← rest.fields? ["min", "max"] with
      | [low, high] => return number (← Json.required? number? low) (← Json.required? number? high)
      | _ => none
    | "string" =>
      match ← rest.fields? ["max_len"] with
      | [length] => return text (← Json.required? (Json.nat? Bounds.max64) length)
      | _ => none
    | "character" => (rest.fields? []).map fun _ => character
    | "color" => (rest.fields? []).map fun _ => color
    | _ => none
  else none

end ParamKind

namespace Value

def toJson : Value → Json
  | number n => .ofInt n
  | text s => .ofString s

def ofJson? : Json → Option Value
  | .string s => s.map text
  | j => (number? j).map number

end Value

namespace Variable

def toJson (v : Variable) : Json :=
  .ofMembers [("name", .ofString v.name), ("default", v.default.toJson)]

def ofJson? (j : Json) : Option Variable := do
  match ← j.fields? ["name", "default"] with
  | [name, default] =>
    return ⟨← Json.required? Json.text? name, ← Json.required? Value.ofJson? default⟩
  | _ => none

end Variable

namespace Group

def toJson (g : Group) : Json :=
  .ofMembers [("kind", g.kind.toJson), ("variables", .array (g.members.map Variable.toJson))]

def ofJson? (j : Json) : Option Group := do
  match ← j.fields? ["kind", "variables"] with
  | [kind, members] =>
    return ⟨← Json.required? ParamKind.ofJson? kind,
      ← Json.required? (Json.items? Variable.ofJson?) members⟩
  | _ => none

end Group

namespace Template

def toJson (t : Template) : Json :=
  .ofMembers [("name", .ofString t.name), ("label", .ofString t.label),
    ("groups", .array (t.groups.map Group.toJson)), ("lines", .array (t.lines.map .ofString))]

/-- Reads a macro. The label and the groups may be missing. -/
def ofJson? (j : Json) : Option Template := do
  match ← j.fields? ["name", "label", "groups", "lines"] with
  | [name, label, groups, lines] =>
    return ⟨← Json.required? Json.text? name, ← Json.optional? "" Json.text? label,
      ← Json.optional? [] (Json.items? Group.ofJson?) groups,
      ← Json.required? (Json.items? Json.text?) lines⟩
  | _ => none

end Template

end RobotScript.Macro
