import RobotScript.Chars.Ascii
import RobotScript.Chars.Split
import RobotScript.Script.Block
/-!
Paths of files. The name of a file is the last component of its path, and its extension what
stands behind the last point of the name. Components that are empty or a single point do not
count.
-/
namespace RobotScript.Path

def pieces (path : List Char) : List (List Char) :=
  (Chars.splitOn '/' path).filter (· != [])

def up : List Char := ['.', '.']

def components (path : List Char) : List (List Char) :=
  (pieces path).filter (· != ['.'])

/-- The name that a path ends with, unless it ends by going up. -/
def fileName? (path : List Char) : Option (List Char) :=
  (components path).getLast?.filter (· != up)

def endsInSlashedName (path : List Char) : Bool :=
  path.getLast? == some '/' && (pieces path).getLast?.any fun piece => piece != ['.'] && piece != up

def splitLast (sep : Char) (cs : List Char) : Option (List Char × List Char) :=
  (Chars.splitOnce sep cs.reverse).map fun (behind, before) => (before.reverse, behind.reverse)

/-- The extension of a name. A point at the start of a name opens none. -/
def extensionOf? (name : List Char) : Option (List Char) :=
  match splitLast '.' name with
  | some ([], _) | none => none
  | some (_, extension) => some extension

def hasExtension (path extension : List Char) : Bool :=
  match (fileName? path).bind extensionOf? with
  | some found => Chars.eqIgnoreCase found extension
  | none => false

end RobotScript.Path

namespace RobotScript

def ExportFormat.extension : ExportFormat → List Char
  | .text => ['t', 'x', 't']
  | .bytecode => ['b', 'c']

/-- The path of an export: the extension of the form is added if it is missing. -/
def exportPath (path : String) (format : ExportFormat) : String :=
  if Path.hasExtension path.toList format.extension then path
  else String.ofList (path.toList ++ '.' :: format.extension)

end RobotScript
