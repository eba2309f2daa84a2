import RobotScript.Json.Basic
/-!
Writing a JSON text with one item or member a line, each level indented by two blanks. Empty
arrays and objects take no line of their own.
-/
namespace RobotScript.Json

def escapeChar (c : Char) : List Char :=
  if c = '"' then ['\\', '"']
  else if c = '\\' then ['\\', '\\']
  else if c = '\n' then ['\\', 'n']
  else if c = '\r' then ['\\', 'r']
  else if c = '\t' then ['\\', 't']
  else if c = '\x08' then ['\\', 'b']
  else if c = '\x0c' then ['\\', 'f']
  else if c.toNat < 0x20 then
    ['\\', 'u', '0', '0', Nat.digitChar (c.toNat / 16), Nat.digitChar (c.toNat % 16)]
  else [c]

def writeString (cs : List Char) : List Char :=
  '"' :: cs.flatMap escapeChar ++ ['"']

def newLine (level : Nat) : List Char :=
  '\n' :: List.replicate (2 * level) ' '

mutual

def write (level : Nat) : Json → List Char
  | .null => "null".toList
  | .bool true => "true".toList
  | .bool false => "false".toList
  | .number numeral => numeral
  | .string text => writeString ((text.map String.toList).getD [])
  | .array [] => ['[', ']']
  | .array (item :: items) =>
    '[' :: newLine (level + 1) ++ write (level + 1) item ++ writeItems (level + 1) items ++
      newLine level ++ [']']
  | .object [] => ['\x7b', '\x7d']
  | .object ((key, value) :: members) =>
    '\x7b' :: newLine (level + 1) ++ writeString ((key.map String.toList).getD []) ++ [':', ' '] ++
      write (level + 1) value ++ writeMembers (level + 1) members ++ newLine level ++ ['\x7d']

def writeItems (level : Nat) : List Json → List Char
  | [] => []
  | item :: items => ',' :: newLine level ++ write level item ++ writeItems level items

def writeMembers (level : Nat) : List (Option String × Json) → List Char
  | [] => []
  | (key, value) :: members =>
    ',' :: newLine level ++ writeString ((key.map String.toList).getD []) ++ [':', ' '] ++
      write level value ++ writeMembers level members

end

def pretty (j : Json) : String :=
  String.ofList (write 0 j)

end RobotScript.Json
