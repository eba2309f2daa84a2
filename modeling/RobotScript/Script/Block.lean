import RobotScript.Script.Splice
/-!
The mark and the lines it spans. The first command sets both ends of the mark on the cursor line,
the second moves the end, and each further one moves the end that it names. Without a mark the
cursor line alone is the block.
-/
namespace RobotScript

inductive Endpoint where
  | start
  | stop
  deriving DecidableEq, Repr

inductive ExportFormat where
  | text
  | bytecode
  deriving DecidableEq, Repr

inductive ExportRegion where
  | program
  | block
  deriving DecidableEq, Repr

def programPrologue : UInt8 := 0xFF

def programEpilogue : UInt8 := 0

namespace Script

def placeMark (s : Script) (endpoint : Endpoint) : Script :=
  let h := s.cursor.handle
  let line := s.cursor.line
  let mark : Mark := match s.mark with
    | none => .single h line
    | some m =>
      if !m.complete then { m with endLine := line, stop := h, complete := true }
      else match endpoint with
        | .start => { m with startLine := line, start := h }
        | .stop => { m with endLine := line, stop := h }
  { s with mark := some mark.order }

def unmark (s : Script) : Script := { s with mark := none }

def block (s : Script) : Mark :=
  s.mark.getD (.single s.cursor.handle s.cursor.line)

def takeThrough (h : Handle) : List Handle → List Handle
  | [] => []
  | x :: xs => if x = h then [x] else x :: takeThrough h xs

/-- The handles of a block, at most as many as its line numbers count. -/
def blockHandles (s : Script) (m : Mark) : List Handle :=
  takeThrough m.stop (s.links.walk m.lineCount (some m.start))

def blockLines (s : Script) (m : Mark) : List Line :=
  (s.blockHandles m).filterMap s.get?

def copyBlock (s : Script) : List String :=
  (s.blockLines s.block).map Line.text

/-- Where the cursor goes when a block is taken out between two places: off the block to the line
behind it, or else the line before it; up with the lines below the block. -/
def relocate (s : Script) (block : Mark) (before : Handle) (after : Option Handle)
    (removed : Nat) : Except Fault Script := do
  if block.contains s.cursor.line then
    match after with
    | some h => return s.setCursor h block.startLine
    | none => return s.setCursor before (← checkedSub block.startLine 1)
  else if block.endLine < s.cursor.line then
    return s.setCursor s.cursor.handle (← checkedSub s.cursor.line removed)
  else return s

def seed (s : Script) : Script :=
  match (s.setCursor .top 0).insertBlankAt .top (some 0) .after with
  | (.ok h, s) => s.setCursor h 1
  | (.error _, s) => s

/-- Takes out the block and the mark and counts the lines. A blank line takes the place of the
last ones. -/
def clearBlock (s : Script) : Except Fault (Nat × Script) := do
  let block := s.block
  let before := (s.previous? block.start).getD .top
  let after := s.next? block.stop
  let (removed, s) := s.unmark.unlinkSpan block.start block.stop
  if s.lineCount = 0 then return (removed, s.seed)
  else return (removed, ← s.relocate block before after removed)

def cutBlock (s : Script) : Except Fault (List String × Script) := do
  let (_, left) ← s.clearBlock
  return (s.copyBlock, left)

/-- The saved form of the program: its first byte, the records of its lines and its last byte. A
blank last line is left out. -/
def flatten (s : Script) : Bytes :=
  let kept := match s.lines.getLast? with
    | some line => if line.isBlank then s.lines.dropLast else s.lines
    | none => []
  programPrologue :: kept.flatMap Line.programBytes ++ [programEpilogue]

def exportBlock (s : Script) (format : ExportFormat) (region : ExportRegion) : Bytes :=
  let lines := match region with
    | .program => s.lines
    | .block => s.blockLines s.block
  match format with
  | .text => lines.flatMap fun l => Text.bytes l.text ++ [0x0A]
  | .bytecode => programPrologue :: lines.flatMap Line.programBytes ++ [programEpilogue]

end Script

end RobotScript
