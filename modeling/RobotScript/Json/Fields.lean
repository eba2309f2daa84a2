import RobotScript.Json.Basic
import RobotScript.Json.Numeral
/-!
Reading values out of a JSON document. A record is an object with a member for each of its
fields, or an array that lists them in order.
-/
namespace RobotScript.Json

def text? : Json → Option String
  | .string text => text
  | _ => none

def int? (low high : Int) : Json → Option Int
  | .number numeral => (integer? numeral).filter fun n => low ≤ n && n ≤ high
  | _ => none

def nat? (bound : Nat) (j : Json) : Option Nat :=
  (j.int? 0 bound).map Int.toNat

def bool? : Json → Option Bool
  | .bool b => some b
  | _ => none

def items? {α : Type} (read : Json → Option α) : Json → Option (List α)
  | .array items => items.mapM read
  | _ => none

def member? (members : List (Option String × Json)) (key : String) : Option (Option Json) :=
  match members.filter (·.1 == some key) with
  | [] => some none
  | [(_, value)] => some (some value)
  | _ => none

/-- The fields of a record, in the order of their names; a field may be missing. An object may
have further members, but every key must be a text and no field may come twice. An array may stop
early, but may not have more items than there are fields. -/
def fields? (names : List String) : Json → Option (List (Option Json))
  | .object members =>
    if members.all (·.1.isSome) then names.mapM (member? members) else none
  | .array items =>
    if items.length ≤ names.length then
      some (items.map some ++ List.replicate (names.length - items.length) none)
    else none
  | _ => none

def required? {α : Type} (read : Json → Option α) (field : Option Json) : Option α :=
  field.bind read

def optional? {α : Type} (default : α) (read : Json → Option α) : Option Json → Option α
  | none => some default
  | some j => read j

mutual

/-- Whether every string of a document is a text, every number finite, and arrays and objects
nest at most `levels` deep. -/
def isClean (levels : Nat) : Json → Bool
  | .null | .bool _ => true
  | .number numeral => isFinite numeral
  | .string text => text.isSome
  | .array items => 0 < levels && areClean (levels - 1) items
  | .object members => 0 < levels && membersClean (levels - 1) members

def areClean (levels : Nat) : List Json → Bool
  | [] => true
  | j :: js => isClean levels j && areClean levels js

def membersClean (levels : Nat) : List (Option String × Json) → Bool
  | [] => true
  | (key, value) :: ms => key.isSome && isClean levels value && membersClean levels ms

end

end RobotScript.Json
