import RobotScript.Bounds
import RobotScript.Chars.Blank
import RobotScript.Chars.Integer
import RobotScript.Chars.Split
import RobotScript.Script.Block
import RobotScript.Settings
/-!
Ex commands: the lines by which a user drives a session, written as a word and its argument.
-/
namespace RobotScript

inductive ExError where
  | unknownCommand (line : String)
  | invalidSyntax (reason : String)
  deriving DecidableEq, Repr

def ExError.message : ExError → String
  | unknownCommand line => s!"Unknown command: {line}"
  | invalidSyntax reason => s!"Invalid syntax: {reason}"

inductive ExCommand where
  | write
  | quit
  | forceQuit
  | writeQuit
  | goto (line : Nat)
  | find (pattern : String)
  | replace (pattern replacement : String)
  | replaceAll (pattern replacement : String)
  | markStart
  | markEnd
  | markClear
  | copy
  | cut
  | clear
  | paste
  /-- Decides on all lines that wait for a decision, or only counts them. -/
  | validate (disposition : Option Disposition)
  | runMacro (invocation : String)
  | quick (slot : Nat)
  | importFile (path : String)
  | exportFile (path : String) (region : ExportRegion) (format : ExportFormat)
  deriving DecidableEq, Repr

namespace ExCommand

def splitHead (line : List Char) : List Char × List Char :=
  (line.takeWhile (! Chars.isBlank ·), Chars.trimStart (line.dropWhile (! Chars.isBlank ·)))

def words (cs : List Char) : List (List Char) :=
  (Chars.splitWhen Chars.isBlank cs).filter (!·.isEmpty)

def required (head : String) (rest : List Char) : Except ExError (List Char) :=
  if rest.isEmpty then .error (.invalidSyntax s!"{head} needs an argument") else .ok rest

def pair (head : String) (rest : List Char) : Except ExError (String × String) := do
  match Chars.splitOnce '/' (← required head rest) with
  | some (c :: pattern, replacement) =>
    return (String.ofList (c :: pattern), String.ofList replacement)
  | _ => throw (.invalidSyntax s!"{head} takes PATTERN/REPLACEMENT")

/-- Reads the options of an export, the last of each sort being the one that counts. -/
def exportOptions (path : String) : ExportRegion → ExportFormat → List (List Char) →
    Except ExError ExCommand
  | region, format, [] => .ok (exportFile path region format)
  | region, format, word :: rest =>
    match String.ofList word with
    | "block" => exportOptions path .block format rest
    | "bc" => exportOptions path region .bytecode rest
    | "txt" => exportOptions path region .text rest
    | other => .error (.invalidSyntax s!"unknown export option: {other}")

def parseExport (rest : List Char) : Except ExError ExCommand :=
  match words rest with
  | [] => .error (.invalidSyntax "export needs a path")
  | path :: options => exportOptions (String.ofList path) .program .text options

def parseMark (rest : String) : Except ExError ExCommand :=
  match rest with
  | "start" => .ok markStart
  | "end" => .ok markEnd
  | "clear" => .ok markClear
  | other => .error (.invalidSyntax s!"mark takes start, end or clear: {other}")

def parseValidate (rest : String) : Except ExError ExCommand :=
  if rest.isEmpty then .ok (validate none)
  else match Disposition.ofWord? rest with
    | some d => .ok (validate (some d))
    | none => .error (.invalidSyntax s!"unknown disposition: {rest}")

def parseGoto (rest : List Char) : Except ExError ExCommand :=
  match Chars.readNat Bounds.max64 rest with
  | some line => .ok (goto line)
  | none => .error (.invalidSyntax s!"goto needs a line number: {String.ofList rest}")

def parseQuick (rest : List Char) : Except ExError ExCommand :=
  match (Chars.readNat Bounds.max64 rest).filter (Settings.isSlot ·) with
  | some slot => .ok (quick slot)
  | none => .error (.invalidSyntax s!"quick takes a slot from 1 to {Settings.quickSlots}")

def parse (text : String) : Except ExError ExCommand := do
  let line := Chars.trim text.toList
  let (head, rest) := splitHead line
  match String.ofList head with
  | "w" | "write" => return write
  | "q" | "quit" => return quit
  | "q!" | "quit!" => return forceQuit
  | "wq" | "x" => return writeQuit
  | "goto" => parseGoto rest
  | "find" => return find (String.ofList (← required "find" rest))
  | "replace" => let (p, r) ← pair "replace" rest; return replace p r
  | "replaceall" => let (p, r) ← pair "replaceall" rest; return replaceAll p r
  | "mark" => parseMark (String.ofList rest)
  | "copy" => return copy
  | "cut" => return cut
  | "clear" => return clear
  | "paste" => return paste
  | "validate" => parseValidate (String.ofList rest)
  | "macro" => return runMacro (String.ofList (← required "macro" rest))
  | "quick" => parseQuick rest
  | "import" => return importFile (String.ofList (← required "import" rest))
  | "export" => parseExport rest
  | "" => throw (.invalidSyntax "Empty command")
  | _ => throw (.unknownCommand (String.ofList line))

end ExCommand

end RobotScript
