import RobotScript.Chars.Split
/-!
The clipboard of a session. Lines are copied to it as one text and pasted as the rows of its text.
-/
namespace RobotScript

inductive Clipboard where
  | unavailable
  | available (text : Option String)
  deriving DecidableEq, Repr

namespace Clipboard

/-- The text of the clipboard; an empty one counts as none. -/
def read? : Clipboard → Option String
  | unavailable => none
  | available text => text.filter (!·.isEmpty)

def write? (text : String) : Clipboard → Option Clipboard
  | unavailable => none
  | available _ => some (available (some text))

def joinLines (lines : List String) : String :=
  String.intercalate "\n" lines

def splitLines (text : String) : List String :=
  (Chars.rows text.toList).map String.ofList

end Clipboard

end RobotScript
