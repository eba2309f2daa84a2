import RobotScript.Chars.Integer
/-!
JSON documents. A document keeps its numbers as they are written and its members in order, also
those that share a key. A string whose escapes and bytes do not spell a text is kept as `none`:
it may stand where nobody reads it.
-/
namespace RobotScript

inductive Json where
  | null
  | bool (value : Bool)
  | number (numeral : List Char)
  | string (text : Option String)
  | array (items : List Json)
  | object (members : List (Option String × Json))
  deriving Inhabited, Repr

namespace Json

def ofString (s : String) : Json := .string (some s)

def ofInt (n : Int) : Json := .number (Chars.decimalInt n)

def ofMembers (members : List (String × Json)) : Json :=
  .object (members.map fun (key, value) => (some key, value))

end Json

end RobotScript
