import RobotScript.Script.Splice
/-!
Moving the cursor from line to line.
-/
namespace RobotScript.Script

def moveUp : Nat → Script → Except Fault Script
  | 0, s => .ok s
  | n + 1, s => do
    match s.previous? s.cursor.handle with
    | some h => moveUp n (s.setCursor h (← checkedSub s.cursor.line 1))
    | none => return s

/-- Moves the cursor one line past the end, to a new blank line. A blank last line takes no line
below it, and a program that is full none at all. -/
def growBelow (s : Script) : Script :=
  if (s.currentLine?.map Line.isBlank).getD true then s
  else
    let number? := s.lineNumber? s.cursor.handle
    match s.insertBlankAt s.cursor.handle number? .after with
    | (.ok h, s) => s.setCursor h (s.cursor.line + 1)
    | (.error _, s) => s

/-- Moves the cursor down. The first step past the end is the last one. -/
def moveDown : Nat → Script → Script
  | 0, s => s
  | n + 1, s =>
    match s.next? s.cursor.handle with
    | some h => moveDown n (s.setCursor h (s.cursor.line + 1))
    | none => s.growBelow

def moveCursor (s : Script) (count : Int) : Except Fault Script :=
  if count < 0 then s.moveUp count.natAbs else .ok (s.moveDown count.toNat)

def gotoLine (s : Script) (number : Nat) : Except Fault Script :=
  let target := max 1 (min number (max s.lineCount 1))
  s.moveCursor ((target : Int) - s.cursor.line)

end RobotScript.Script
