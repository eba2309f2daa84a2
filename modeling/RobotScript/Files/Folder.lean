import RobotScript.Files.Path
/-!
A folder of files and folders, as far as reading and writing files in it can tell.
-/
namespace RobotScript

inductive FileNode where
  | file (data : Bytes)
  | folder
  deriving DecidableEq, Repr

/-- What a folder holds: nodes under their paths from the folder. -/
abbrev Folder := List (String × FileNode)

inductive FileError where
  | notFound
  | notFolder
  | isFolder
  | tooLong
  | holdsNul
  deriving DecidableEq, Repr

namespace Folder

def join (components : List (List Char)) : String :=
  String.ofList (List.intercalate ['/'] components)

/-- What stands at the end of some components. Steps up alone lead to a folder, and so does no
component at all. -/
def node? (f : Folder) (components : List (List Char)) : Option FileNode :=
  if components.all (· == Path.up) then some .folder else f.lookup (join components)

def listing (f : Folder) : Folder :=
  f.filter fun (name, _) => !name.toList.contains '/'

/-! ### Finding the place that a path leads to -/

def maxName : Nat := 255

def maxPath : Nat := 4095

def checkPath (path : String) : Except FileError Unit :=
  if path.toList.contains '\x00' then .error .holdsNul
  else if path.isEmpty then .error .notFound
  else if maxPath < path.utf8ByteSize then .error .tooLong
  else .ok ()

def checkFolder (f : Folder) (reached : List (List Char)) : Except FileError Unit :=
  match f.node? reached with
  | none => .error .notFound
  | some (.file _) => .error .notFolder
  | some .folder => .ok ()

/-- Goes up from a place. Above the top the steps up are kept. -/
def above (reached : List (List Char)) : List (List Char) :=
  if reached.all (· == Path.up) then reached ++ [Path.up] else reached.dropLast

def enter (f : Folder) (reached : List (List Char)) (component : List Char) :
    Except FileError (List (List Char)) := do
  f.checkFolder reached
  if component = Path.up then return above reached
  if maxName < (String.ofList component).utf8ByteSize then throw .tooLong
  return reached ++ [component]

def walk (f : Folder) (components : List (List Char)) : Except FileError (List (List Char)) :=
  components.foldlM f.enter []

def demandsFolder (path : List Char) : Bool :=
  match (Chars.splitOn '/' path).getLast? with
  | some [] | some ['.'] => true
  | _ => false

def resolve (f : Folder) (path : String) : Except FileError (List (List Char)) := do
  checkPath path
  let reached ← f.walk (Path.components path.toList)
  if demandsFolder path.toList then f.checkFolder reached
  return reached

/-! ### Reading and writing -/

def read (f : Folder) (path : String) : Except FileError Bytes := do
  match f.node? (← f.resolve path) with
  | some (.file data) => return data
  | some .folder => throw .isFolder
  | none => throw .notFound

def put (name : String) (data : Bytes) : Folder → Folder
  | [] => [(name, .file data)]
  | (n, node) :: rest => if n = name then (n, .file data) :: rest else (n, node) :: put name data rest

/-- Writes a file, new or old. A slash behind its name makes it a folder, whatever stands there. -/
def write (f : Folder) (path : String) (data : Bytes) : Except FileError Folder := do
  checkPath path
  if Path.endsInSlashedName path.toList then
    f.checkFolder (← f.walk (Path.components path.toList).dropLast)
    throw .isFolder
  let reached ← f.resolve path
  match f.node? reached with
  | some .folder => throw .isFolder
  | _ => return put (join reached) data f

end Folder

end RobotScript
