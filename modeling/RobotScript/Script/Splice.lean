import RobotScript.Script.Basic
/-!
Putting lines in and taking them out. Each change renumbers the cursor line and the ends of the
mark, and keeps the size and the count of the lines up.
-/
namespace RobotScript

namespace Mark

def shiftDown (m : Mark) (number : Nat) : Mark :=
  { m with
    startLine := if number ≤ m.startLine then m.startLine + 1 else m.startLine
    endLine := if number ≤ m.endLine then m.endLine + 1 else m.endLine }

/-- The mark after the line with a number is taken out: ends below it move up, and an end on it
moves into the range. The mark goes when no line is left in it. -/
def shiftUp? (m : Mark) (h : Handle) (number : Nat) (previous : Handle) (next? : Option Handle) :
    Option Mark :=
  let start := if m.start = h then next?.getD m.start else m.start
  let stop := if m.stop = h then previous else m.stop
  let startLine := if number < m.startLine then m.startLine - 1 else m.startLine
  let endLine := if number ≤ m.endLine then m.endLine - 1 else m.endLine
  if startLine ≤ endLine && !stop.isTop then some { m with startLine, endLine, start, stop }
  else none

end Mark

namespace Script

def shiftDown (s : Script) (number : Nat) : Script :=
  { s with
    mark := s.mark.map (·.shiftDown number)
    cursor :=
      if !s.cursor.handle.isTop && number ≤ s.cursor.line then
        { s.cursor with line := s.cursor.line + 1 }
      else s.cursor }

/-- Puts a line next to an anchor, whose number the caller knows, and gives the number of the new
line. -/
def link? (s : Script) (anchor : Handle) (anchorNumber : Nat) (relation : Relation)
    (entry : Entry) : Option (Nat × Script) :=
  let number := match relation with
    | .before => anchorNumber
    | .after => anchorNumber + 1
  (s.links.insert? anchor relation entry).map fun links =>
    (number, { s.shiftDown number with
      links
      lineCount := s.lineCount + 1
      totalSize := s.totalSize + entry.line.size })

/-- Takes out a line, whose number the caller knows. The cursor must have been moved off it. -/
def unlink (s : Script) (h : Handle) (number : Nat) : Script :=
  match s.get? h, s.links.above? h with
  | some line, some above =>
    { s with
      links := s.links.erase h
      lineCount := s.lineCount - 1
      pool := s.pool.release h
      totalSize := s.totalSize - line.size
      mark := s.mark.bind (·.shiftUp? h number above (s.next? h))
      cursor :=
        if s.cursor.handle ≠ h ∧ number < s.cursor.line then
          { s.cursor with line := s.cursor.line - 1 }
        else s.cursor }
  | _, _ => s

/-- Takes out the lines from one down to another and counts them. Cursor and mark are left to the
caller. -/
def unlinkSpan (s : Script) (start stop : Handle) : Nat × Script :=
  let (run, links) := s.links.eraseSpan start stop
  (run.length, { s with
    links
    lineCount := s.lineCount - run.length
    pool := run.foldl (fun p e => p.release e.handle) s.pool
    totalSize := s.totalSize - Line.sizeOfAll (run.map (·.line)) })

/-- Puts a line in under a new handle, next to an anchor of some number, and gives the handle and
the number of the line. A line that finds no place has used its handle up. -/
def insertLine (s : Script) (anchor : Handle) (anchorNumber? : Option Nat) (relation : Relation)
    (line : Line) : Except EditError (Handle × Nat) × Script :=
  let (h, pool) := s.pool.allocate
  match anchorNumber?.bind fun n => { s with pool }.link? anchor n relation ⟨h, line⟩ with
  | some (number, s) => (.ok (h, number), s)
  | none => (.error .lineNotFound, { s with pool := pool.release h })

def insertBlankAt (s : Script) (anchor : Handle) (anchorNumber? : Option Nat)
    (relation : Relation) : Except EditError Handle × Script :=
  match s.checkCapacity 0 Line.blank.size with
  | .error err => (.error err, s)
  | .ok () =>
    let (result, s) := s.insertLine anchor anchorNumber? relation .blank
    (result.map (·.1), s)

/-- Puts in a blank line, if there is room. Only then is its anchor looked for. -/
def insertBlank (s : Script) (anchor : Handle) (relation : Relation) :
    Except Fault (Except EditError Handle × Script) :=
  if (s.checkCapacity 0 Line.blank.size).isOk && s.missesEndlessly anchor then .error .endless
  else .ok (s.insertBlankAt anchor (s.lineNumber? anchor) relation)

/-- Where the cursor goes from a line that is deleted: to the neighbour that the focus names, or
to the other one at the ends. -/
def refuge? (s : Script) (h : Handle) (focus : Focus) : Except Fault (Option (Handle × Nat)) :=
  match focus, s.previous? h, s.next? h with
  | .next, _, some below | .previous, none, some below =>
    .ok (some (below, s.cursor.line + 1))
  | .next, some above, none | .previous, some above, _ => do
    return some (above, ← checkedSub s.cursor.line 1)
  | _, none, none => .ok none

def delete (s : Script) (h : Handle) (focus : Focus) : Except Fault (Bool × Script) := do
  if s.lineCount ≤ 1 || !s.contains h then return (false, s)
  else if h = s.cursor.handle then
    match ← s.refuge? h focus with
    | some (h', number) => return (true, (s.setCursor h' number).unlink h s.cursor.line)
    | none => return (false, s)
  else
    match ← s.numberOf h with
    | some number => return (true, s.unlink h number)
    | none => return (false, s)

end Script

end RobotScript
