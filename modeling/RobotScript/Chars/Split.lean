/-!
Splitting texts at separators, and the rows of a text.
-/
namespace RobotScript.Chars

def splitWhen (p : Char → Bool) : List Char → List (List Char)
  | [] => [[]]
  | c :: cs =>
    if p c then [] :: splitWhen p cs
    else match splitWhen p cs with
      | [] => [[c]]
      | piece :: pieces => (c :: piece) :: pieces

def splitOn (sep : Char) (cs : List Char) : List (List Char) :=
  splitWhen (· == sep) cs

def splitOnce (sep : Char) : List Char → Option (List Char × List Char)
  | [] => none
  | c :: cs =>
    if c = sep then some ([], cs)
    else (splitOnce sep cs).map fun (before, behind) => (c :: before, behind)

def dropReturn (cs : List Char) : List Char :=
  if cs.getLast? = some '\r' then cs.dropLast else cs

/-- The rows of a text. A row ends with a line feed and loses a carriage return right before it;
what stands behind the last line feed is a row if it is not empty, and keeps its carriage
return. -/
def rows (cs : List Char) : List (List Char) :=
  let pieces := splitOn '\n' cs
  let rest := pieces.getLast?.getD []
  pieces.dropLast.map dropReturn ++ (if rest.isEmpty then [] else [rest])

end RobotScript.Chars
