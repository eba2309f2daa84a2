import RobotScript.Editor.Command
import RobotScript.Files.Transfer
import RobotScript.Session.Clipboard
import RobotScript.Session.ExCommand
/-!
Sessions: an editor with the storage of its program, the clipboard, the settings and the files it
imports from and exports to. The program is stored on demand and when the session is closed, which
is refused while lines wait for a decision.
-/
namespace RobotScript

structure Storage where
  program : Bytes
  /-- How often a program has been stored. -/
  stores : Nat
  loadError : Option IoError
  storeError : Option IoError
  deriving DecidableEq, Repr

namespace Storage

def load (s : Storage) : Except IoError Bytes :=
  match s.loadError with
  | some err => .error err
  | none => .ok s.program

def store (s : Storage) (program : Bytes) : Except IoError Storage :=
  match s.storeError with
  | some err => .error err
  | none => .ok { s with program, stores := s.stores + 1 }

end Storage

inductive SessionError where
  | io (err : IoError)
  | command (err : ExError)
  | unresolvedLines (count : Nat)
  deriving DecidableEq, Repr

def SessionError.message : SessionError → String
  | io err => s!"I/O error: {err.message}"
  | command err => s!"Command error: {err.message}"
  | unresolvedLines count => s!"{count} line(s) still need a decision (use :q! to force)"

structure CloseSummary where
  programSize : Nat
  droppedLines : Nat
  deriving DecidableEq, Repr

structure InsertSummary where
  inserted : Nat
  refused : Option EditError
  deriving DecidableEq, Repr

def InsertSummary.message (verb : String) (s : InsertSummary) : String :=
  match s.refused with
  | none => s!"{verb} {s.inserted} line(s)"
  | some err => s!"{verb} {s.inserted} line(s), then stopped: {err.message}"

inductive Action where
  | goOn
  | saved (size : Nat)
  | closed (summary : CloseSummary)
  deriving DecidableEq, Repr

structure Session where
  editor : Editor
  storage : Storage
  clipboard : Clipboard
  settings : Settings
  /-- What was copied while there was no clipboard. -/
  copyBuffer : List String
  status : String
  folder : Folder

structure Attended (α : Type) where
  result : Except SessionError α
  session : Session

namespace Session

/-- Opens a session on the stored program. Storage that holds nothing gives a blank line. -/
def start (storage : Storage) (clipboard : Clipboard) (settings : Settings) (folder : Folder) :
    Except IoError Session := do
  let program ← storage.load
  let fresh := { Editor.new settings.config with macros := settings.library }
  let editor := if program.isEmpty then fresh else fresh.load program
  return ⟨editor, storage, clipboard, settings, [], "", folder⟩

def lines (s : Session) : List String := s.editor.script.lines.map (·.text)

def tell (s : Session) (status : String) : Session := { s with status }

def copy (s : Session) (lines : List String) : Session :=
  match s.clipboard.write? (Clipboard.joinLines lines) with
  | some clipboard => { s with clipboard }
  | none => { s with copyBuffer := lines }

def report (s : Session) : CommandOutcome → Session
  | .unchanged | .changed => s
  | .status message => s.tell message
  | .copied lines => (s.tell s!"Copied {lines.length} line(s)").copy lines
  | .found m => s.tell s!"Found at line {m.number}"
  | .notFound => s.tell "Not found"

def apply (s : Session) (command : EditCommand) : Except Fault Session := do
  let (outcome, editor) ← s.editor.apply command
  return { s with editor }.report outcome

/-- Inserts texts above the cursor in order, each under guards of its own. A text that calls an
unknown macro is skipped; the first that there is no room for ends the insertion. -/
def insertTexts : Nat → Editor → List String → Except Fault (InsertSummary × Editor)
  | inserted, e, [] => .ok (⟨inserted, none⟩, e)
  | inserted, e, text :: texts => do
    let edited ← e.beginCommand.insertAtCursor text
    match edited.result with
    | .ok _ => insertTexts (inserted + 1) edited.editor texts
    | .error (.capacityExceeded needed max) =>
      return (⟨inserted, some (.capacityExceeded needed max)⟩, edited.editor)
    | .error _ => insertTexts inserted edited.editor texts

def insertLines (s : Session) (texts : List String) :
    Except Fault (InsertSummary × Session) := do
  let (summary, editor) ← insertTexts 0 s.editor texts
  return (summary, { s with editor })

/-- What a paste inserts: the rows on the clipboard, or else what was copied without one. -/
def pasteTexts (s : Session) : List String :=
  match s.clipboard.read? with
  | some text => Clipboard.splitLines text
  | none => s.copyBuffer

def paste (s : Session) : Except Fault (InsertSummary × Session) :=
  s.insertLines s.pasteTexts

/-- Imports a file above the cursor. Bytecode that does not decode inserts nothing. -/
def importFile (s : Session) (path : String) :
    Except Fault (Attended InsertSummary) := do
  match importLines s.folder path with
  | .error err => return ⟨.error (.io err), s⟩
  | .ok texts =>
    let (summary, s) ← s.insertLines texts
    return ⟨.ok summary, s⟩

def exportFile (s : Session) (path : String) (region : ExportRegion) (format : ExportFormat) :
    Attended String :=
  match writeExport s.folder path format (s.editor.script.exportBlock format region) with
  | .error err => ⟨.error (.io err), s⟩
  | .ok (written, folder) => ⟨.ok written, { s with folder }⟩

/-- What `exportFile` gives, unless there is no end to the lines that are exported. -/
def exportLines (s : Session) (path : String) (region : ExportRegion) (format : ExportFormat) :
    Except Fault (Attended String) :=
  match region with
  | .program => s.editor.script.throughLines (s.exportFile path region format)
  | .block => .ok (s.exportFile path region format)

def write (s : Session) : Attended Nat :=
  let program := s.editor.script.flatten
  match s.storage.store program with
  | .error err => ⟨.error (.io err), s⟩
  | .ok storage =>
    ⟨.ok program.length, { s with storage }.tell s!"Wrote {program.length} bytes"⟩

def droppedCount (s : Session) : Nat :=
  s.editor.script.lines.countP fun l =>
    l.validity == .invalid .ignore || l.validity == .invalid .delete

/-- Stores the program and closes the session. Unless it is forced, it is refused while lines
wait for a decision. -/
def close (s : Session) (force : Bool) : Attended CloseSummary :=
  let unresolved := s.editor.unresolvedCount
  if unresolved > 0 && !force then
    ⟨.error (.unresolvedLines unresolved), s.tell (unresolvedMessage unresolved)⟩
  else
    let program := s.editor.script.flatten
    match s.storage.store program with
    | .error err => ⟨.error (.io err), s⟩
    | .ok storage => ⟨.ok ⟨program.length, s.droppedCount⟩, { s with storage }⟩

def closing (attended : Attended CloseSummary) : Attended Action :=
  ⟨attended.result.map .closed, attended.session⟩

def perform (s : Session) (command : EditCommand) : Except Fault (Attended Action) := do
  return ⟨.ok .goOn, ← s.apply command⟩

def run (s : Session) (command : ExCommand) : Except Fault (Attended Action) :=
  match command with
  | .write => do
    let attended ← s.editor.script.throughLines s.write
    return ⟨attended.result.map .saved, attended.session⟩
  | .quit | .writeQuit => s.editor.script.throughLines (closing (s.close false))
  | .forceQuit => s.editor.script.throughLines (closing (s.close true))
  | .goto line => s.perform (.gotoLine line)
  | .find pattern => s.perform (.find pattern none)
  | .replace pattern replacement => s.perform (.replace pattern replacement)
  | .replaceAll pattern replacement => s.perform (.replaceAll pattern replacement)
  | .markStart => s.perform .markBegin
  | .markEnd => s.perform .markEnd
  | .markClear => s.perform .unmark
  | .copy => s.perform .copyBlock
  | .cut => s.perform .cutBlock
  | .clear => s.perform .clearBlock
  | .paste => do
    let (summary, s) ← s.paste
    return ⟨.ok .goOn, s.tell (summary.message "Pasted")⟩
  | .validate (some d) => s.perform (.validate d)
  | .validate none =>
    s.editor.script.throughLines ⟨.ok .goOn, s.tell (unresolvedMessage s.editor.unresolvedCount)⟩
  | .runMacro invocation => s.perform (.runMacro invocation)
  | .quick slot => s.perform (.quickMacro slot ((s.settings.quickMacro? slot).getD ""))
  | .importFile path => do
    let attended ← s.importFile path
    match attended.result with
    | .ok summary => return ⟨.ok .goOn, attended.session.tell (summary.message "Imported")⟩
    | .error err => return ⟨.error err, attended.session⟩
  | .exportFile path region format => do
    let attended ← s.exportLines path region format
    match attended.result with
    | .ok written => return ⟨.ok .goOn, attended.session.tell s!"Exported to {written}"⟩
    | .error err => return ⟨.error err, attended.session⟩

def execute (s : Session) (text : String) : Except Fault (Attended Action) :=
  match ExCommand.parse text with
  | .error err => .ok ⟨.error (.command err), s⟩
  | .ok command => s.run command

end Session

end RobotScript
