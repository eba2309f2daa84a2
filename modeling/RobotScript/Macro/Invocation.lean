import RobotScript.Chars.Blank
import RobotScript.Chars.Split
/-!
Invocations of macros. An invocation is a name and a list of arguments, written
`name(argument, key=value, …)` or, with a comma for the parenthesis, `name,argument,…`.
-/
namespace RobotScript.Macro

structure Argument where
  name : Option String
  value : String
  deriving DecidableEq, Repr

structure Invocation where
  name : String
  args : List Argument
  deriving DecidableEq, Repr

def endsName (c : Char) : Bool := c == '(' || c == ','

def Argument.parse (cs : List Char) : Argument :=
  match Chars.splitOnce '=' cs with
  | some (key, value) =>
    ⟨some (String.ofList (Chars.trim key)), String.ofList (Chars.trim value)⟩
  | none => ⟨none, String.ofList (Chars.trim cs)⟩

/-- Reads the arguments behind the name, up to a closing parenthesis. A blank list has none. -/
def Argument.parseAll (cs : List Char) : List Argument :=
  let body := cs.takeWhile (· != ')')
  if (Chars.trim body).isEmpty then [] else (Chars.splitOn ',' body).map parse

def Invocation.parse (cs : List Char) : Invocation where
  name := String.ofList (Chars.trim (cs.takeWhile (! endsName ·)))
  args := Argument.parseAll ((cs.dropWhile (! endsName ·)).drop 1)

end RobotScript.Macro
