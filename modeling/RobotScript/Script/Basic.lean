import RobotScript.EditError
import RobotScript.Fault
import RobotScript.Script.Links
/-!
Scripts: the lines of a program, linked, with their number and the size they are counted with, the
cursor and the mark. Line numbers start from 1; number 0 is the place above the first line.
-/
namespace RobotScript

structure Cursor where
  handle : Handle
  line : Nat
  column : Nat
  deriving DecidableEq, Repr

/-- A range of lines by number and by handle, both ends included. It is complete once both ends
have been set apart. -/
structure Mark where
  startLine : Nat
  endLine : Nat
  start : Handle
  stop : Handle
  complete : Bool
  deriving DecidableEq, Repr

structure Script where
  links : Links
  /-- How many lines there are, kept up with every change. -/
  lineCount : Nat
  pool : HandlePool
  /-- The sum of the sizes of the lines, kept up with every change. -/
  totalSize : Nat
  /-- How many bytes the program may take. -/
  capacity : Nat
  cursor : Cursor
  mark : Option Mark
  deriving DecidableEq, Repr

inductive Focus where
  | previous
  | next
  deriving DecidableEq, Repr

namespace Mark

def single (h : Handle) (line : Nat) : Mark := ⟨line, line, h, h, false⟩

def lineCount (m : Mark) : Nat := m.endLine - m.startLine + 1

def contains (m : Mark) (line : Nat) : Bool := m.startLine ≤ line && line ≤ m.endLine

def order (m : Mark) : Mark :=
  if m.startLine > m.endLine then
    { m with startLine := m.endLine, endLine := m.startLine, start := m.stop, stop := m.start }
  else m

end Mark

namespace Script

def framing : Nat := 2

def ofLines (capacity : Nat) (lines : List Line) : Script where
  links := .ofEntries (lines.mapIdx fun i line => ⟨⟨i + 1, 0⟩, line⟩)
  lineCount := lines.length
  pool := .ofCount lines.length
  totalSize := Line.sizeOfAll lines
  capacity := capacity
  cursor := ⟨.top, 0, 0⟩
  mark := none

/-- The lines on the way down from the top, each under its handle. -/
def entries (s : Script) : List Entry := s.links.below .top

def lines (s : Script) : List Line := s.entries.map (·.line)

def handles (s : Script) : List Handle := s.entries.map (·.handle)

def programSize (s : Script) : Nat := s.totalSize + framing

/-! ### Looking up -/

def index? (s : Script) (h : Handle) : Option Nat := Entry.indexIn? s.entries h

def get? (s : Script) (h : Handle) : Option Line := s.links.get? h

def contains (s : Script) (h : Handle) : Bool := (s.get? h).isSome

def next? (s : Script) (h : Handle) : Option Handle := s.links.next? h

def previous? (s : Script) (h : Handle) : Option Handle := (s.links.above? h).filter (!·.isTop)

def first? (s : Script) : Option Handle := s.next? .top

/-- Whether the way down from the top has no end. -/
def endless (s : Script) : Bool := s.links.endless s.first?

/-- What comes of going through all lines: nothing, if their way has no end. -/
def throughLines {α : Type} (s : Script) (result : α) : Except Fault α :=
  if s.endless then .error .endless else .ok result

def last? (s : Script) : Except Fault (Option Handle) := s.throughLines s.links.last?

/-- The number of a line. The number of the cursor line is the one that the cursor keeps. -/
def lineNumber? (s : Script) (h : Handle) : Option Nat :=
  if h.isTop then some 0
  else if h = s.cursor.handle then some s.cursor.line
  else (s.index? h).map (· + 1)

def missesEndlessly (s : Script) (h : Handle) : Bool := (s.lineNumber? h).isNone && s.endless

/-- The number of a line, which is looked for on the way down from the top. -/
def numberOf (s : Script) (h : Handle) : Except Fault (Option Nat) :=
  if s.missesEndlessly h then .error .endless else .ok (s.lineNumber? h)

def lineAt? (s : Script) (number : Nat) : Option Handle :=
  if number = 0 then none
  else (s.links.walk number s.first?)[number - 1]?.filter s.contains

def currentLine? (s : Script) : Option Line := s.get? s.cursor.handle

/-! ### Sizes -/

/-- The size of the program after one of its lines changes from `old` to `new` bytes, or the
refusal if that is more than it may take. -/
def checkCapacity (s : Script) (old new : Nat) : Except EditError Unit :=
  let needed := s.programSize - old + new
  if needed > s.capacity then .error (.capacityExceeded needed s.capacity) else .ok ()

def setLine (s : Script) (h : Handle) (line : Line) : Script :=
  match s.get? h with
  | none => s
  | some old =>
    { s with
      links := s.links.setLine h line
      totalSize := s.totalSize - old.size + line.size }

/-! ### The cursor -/

def setCursor (s : Script) (h : Handle) (number : Nat) : Script :=
  { s with cursor := { s.cursor with handle := h, line := number } }

def setColumn (s : Script) (column : Nat) : Script :=
  { s with cursor := { s.cursor with column } }

end Script

end RobotScript
