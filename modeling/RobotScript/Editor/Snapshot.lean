import RobotScript.Editor.Basic
/-!
Snapshots: what two editors must agree on to look the same to the user.
-/
namespace RobotScript

structure Snapshot where
  lines : List String
  validities : List Validity
  cursorLine : Nat
  cursorColumn : Nat
  totalSize : Nat
  /-- The first and the last line of the mark. -/
  mark : Option (Nat × Nat)
  deriving DecidableEq, Repr

def Editor.snapshot (e : Editor) : Snapshot where
  lines := e.script.lines.map (·.text)
  validities := e.script.lines.map (·.validity)
  cursorLine := e.script.cursor.line
  cursorColumn := e.script.cursor.column
  totalSize := e.script.totalSize
  mark := e.script.mark.map fun m => (m.startLine, m.endLine)

end RobotScript
