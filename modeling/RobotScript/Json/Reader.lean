import RobotScript.Json.Token
/-!
Reading a JSON text. The reader takes one token at a time and keeps the arrays and objects that
are still open on a stack, so that a text may nest as deep as it likes.
-/
namespace RobotScript.Json

inductive Frame where
  | array (items : List Json)
  | object (members : List (Option String × Json)) (key : Option String)

inductive Expect where
  /-- A value. -/
  | value
  /-- The first item of an array, or its end. -/
  | firstItem
  /-- The first key of an object, or its end. -/
  | firstKey
  /-- A further key. -/
  | key (members : List (Option String × Json))
  /-- The colon behind a key. -/
  | colon (members : List (Option String × Json)) (key : Option String)
  /-- A comma or the end of the innermost array or object; at the top, the end of the text. -/
  | next (value : Json)

def ofToken? : Token → Option Json
  | .null => some .null
  | .bool b => some (.bool b)
  | .number n => some (.number n)
  | .string s => some (.string s)
  | _ => none

def startValue (t : Token) (stack : List Frame) : Option (Expect × List Frame) :=
  match t with
  | .arrayStart => some (.firstItem, stack)
  | .objectStart => some (.firstKey, stack)
  | _ => (ofToken? t).map fun v => (.next v, stack)

def step (state : Expect) (stack : List Frame) (t : Token) : Option (Expect × List Frame) :=
  match state, t with
  | .value, t => startValue t stack
  | .firstItem, .arrayEnd => some (.next (.array []), stack)
  | .firstItem, t => startValue t (.array [] :: stack)
  | .firstKey, .objectEnd => some (.next (.object []), stack)
  | .firstKey, .string k => some (.colon [] k, stack)
  | .key members, .string k => some (.colon members k, stack)
  | .colon members k, .colon => some (.value, .object members k :: stack)
  | .next v, t =>
    match stack, t with
    | .array items :: stack, .comma => some (.value, .array (v :: items) :: stack)
    | .array items :: stack, .arrayEnd => some (.next (.array (v :: items).reverse), stack)
    | .object members k :: stack, .comma => some (.key ((k, v) :: members), stack)
    | .object members k :: stack, .objectEnd =>
      some (.next (.object ((k, v) :: members).reverse), stack)
    | _, _ => none
  | _, _ => none

def run (state : Expect) (stack : List Frame) : List Token → Option Json
  | [] =>
    match state, stack with
    | .next v, [] => some v
    | _, _ => none
  | t :: ts => do
    let (state, stack) ← step state stack t
    run state stack ts

def parse? (bs : Bytes) : Option Json := do
  run .value [] (← Token.scan? bs)

end RobotScript.Json
