import RobotScript.Files.Folder
import RobotScript.Program
import RobotScript.Text
/-!
Importing lines from files and exporting them. A file whose extension is `bc`, whatever the case
of its letters, holds bytecode; any other holds text.
-/
namespace RobotScript

inductive IoError where
  | notFound (path : String)
  | permissionDenied (path : String)
  | storage (reason : String)
  | malformedImport (reason : String)
  deriving DecidableEq, Repr

def IoError.message : IoError → String
  | notFound path => s!"File not found: {path}"
  | permissionDenied path => s!"Permission denied: {path}"
  | storage reason => s!"Storage error: {reason}"
  | malformedImport reason => s!"Malformed import: {reason}"

def FileError.at (path : String) : FileError → IoError
  | notFound => .notFound path
  | notFolder => .storage s!"{path}: Not a directory (os error 20)"
  | isFolder => .storage s!"{path}: Is a directory (os error 21)"
  | tooLong => .storage s!"{path}: File name too long (os error 36)"
  | holdsNul => .storage s!"{path}: file name contained an unexpected NUL byte"

inductive ImportData where
  | text (rows : List String)
  | bytecode (body : Bytes)
  deriving DecidableEq, Repr

def minBytecodeFile : Nat := 5

def readBytecode (path : String) (data : Bytes) : Except IoError Bytes :=
  if data.length < minBytecodeFile then
    .error (.malformedImport s!"{path} is only {data.length} bytes")
  else
    match data with
    | b :: body =>
      if b = programPrologue then .ok body
      else .error (.malformedImport s!"{path} does not start with 0xFF")
    | [] => .error (.malformedImport s!"{path} does not start with 0xFF")

def readImport (f : Folder) (path : String) : Except IoError ImportData := do
  let data ← (f.read path).mapError (·.at path)
  if Path.hasExtension path.toList ExportFormat.bytecode.extension then
    return .bytecode (← readBytecode path data)
  else return .text ((Chars.rows (Chars.decodeLossy data)).map String.ofList)

def importLines (f : Folder) (path : String) : Except IoError (List String) := do
  match ← readImport f path with
  | .text rows => return rows
  | .bytecode body =>
    (decodeRecords body).mapError fun err => .malformedImport s!"{path}: {err.message}"

def writeExport (f : Folder) (path : String) (format : ExportFormat) (data : Bytes) :
    Except IoError (String × Folder) := do
  let target := exportPath path format
  let f ← (f.write target data).mapError (·.at target)
  return (target, f)

end RobotScript
