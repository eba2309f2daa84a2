import RobotScript.Editor.Expansion
import RobotScript.Script.Motion
/-!
Finding and replacing. A search goes from a column of the cursor line to its end, through the
lines below, and, if it wraps, through lines from the top. Columns count bytes, and a match starts
at a character.
-/
namespace RobotScript

structure Match where
  handle : Handle
  number : Nat
  column : Nat
  deriving DecidableEq, Repr

def findColumn (pattern : List Char) (start : Nat) : Nat → List Char → Option Nat
  | _, [] => none
  | column, c :: cs =>
    if start ≤ column && pattern.isPrefixOf (c :: cs) then some column
    else findColumn pattern start (column + c.utf8Size) cs

namespace SearchOptions

def view (o : SearchOptions) (text : String) : List Char :=
  if o.caseSensitive then text.toList else Chars.fold text.toList

def findIn (o : SearchOptions) (pattern text : String) (start : Nat) : Option Nat :=
  findColumn (o.view pattern) start 0 (o.view text)

def findAmong (o : SearchOptions) (pattern : String) : Nat → List Entry → Option Match
  | _, [] => none
  | number, entry :: entries =>
    match o.findIn pattern entry.line.text 0 with
    | some column => some ⟨entry.handle, number, column⟩
    | none => findAmong o pattern (number + 1) entries

end SearchOptions

structure ReplaceSummary where
  replaced : Nat
  refused : Option EditError
  deriving DecidableEq, Repr

namespace Editor

def findHere? (e : Editor) (pattern : String) (o : SearchOptions) (start : Nat) :
    Option Match := do
  let column ← o.findIn pattern (← e.script.currentLine?).text start
  return ⟨e.script.cursor.handle, e.script.cursor.line, column⟩

def findBelow? (e : Editor) (pattern : String) (o : SearchOptions) : Option Match :=
  o.findAmong pattern (e.script.cursor.line + 1) (e.script.links.below e.script.cursor.handle)

/-- The next match from a column of the cursor line on; a search that wraps ends with line
`last`. -/
def findFrom (e : Editor) (pattern : String) (o : SearchOptions) (start last : Nat) :
    Option Match :=
  if pattern.isEmpty then none
  else
    let above := if o.wrap then o.findAmong pattern 1 (e.script.entries.take last) else none
    e.findHere? pattern o start <|> e.findBelow? pattern o <|> above

/-- The next match behind the cursor. A search that wraps ends above the cursor line. -/
def find (e : Editor) (pattern : String) (o : SearchOptions) : Option Match :=
  e.findFrom pattern o (e.script.cursor.column + 1) (e.script.cursor.line - 1)

def searchesEndlessly (e : Editor) (pattern : String) (o : SearchOptions) (start : Nat) : Bool :=
  !pattern.isEmpty && (e.findHere? pattern o start <|> e.findBelow? pattern o).isNone &&
    e.script.links.endless (e.script.next? e.script.cursor.handle)

/-- What `findFrom` gives, if the search ends. -/
def seekFrom (e : Editor) (pattern : String) (o : SearchOptions) (start last : Nat) :
    Except Fault (Option Match) :=
  if e.searchesEndlessly pattern o start then .error .endless
  else .ok (e.findFrom pattern o start last)

def atMaxColumn (e : Editor) : Bool := Bounds.max64 ≤ e.script.cursor.column

/-- What `find` gives, if the search ends. -/
def seek (e : Editor) (pattern : String) (o : SearchOptions) : Except Fault (Option Match) :=
  if e.atMaxColumn then .error .overflow
  else e.seekFrom pattern o (e.script.cursor.column + 1) (e.script.cursor.line - 1)

def moveTo (e : Editor) (m : Match) : Except Fault Editor := do
  let script ← e.script.gotoLine m.number
  return { e with script := script.setColumn m.column }

def replaceAt (e : Editor) (m : Match) (length : Nat) (replacement : String) :
    Except Fault (Edited Outcome) :=
  match e.script.get? m.handle with
  | none => .ok ⟨.error .lineNotFound, e⟩
  | some line =>
    let spliced := Text.splice line.text m.column (m.column + length) replacement
    e.update m.handle (Text.cut Line.maxText spliced)

def replaceOne (e : Editor) (pattern replacement : String) (o : SearchOptions) :
    Except Fault (Edited (Option Match)) := do
  match ← e.seek pattern o with
  | none => return ⟨.ok none, e⟩
  | some m =>
    let edited ← (← e.moveTo m).replaceAt m (Text.size pattern) replacement
    return ⟨edited.result.map fun _ => some m, edited.editor⟩

def signed64 (n : Nat) : Int := (n : Int).bmod Bounds.count64

structure Pass where
  /-- The line on which it started. -/
  startLine : Nat
  /-- The column at which it started, moved along by replacements before it. -/
  startColumn : Int
  /-- The line of the last match. -/
  lastLine : Nat
  /-- The column behind the last replacement. -/
  lastColumn : Int
  /-- Whether it has wrapped. -/
  wrapped : Bool
  /-- The column from which the search goes on. -/
  resume : Nat
  /-- How many matches have been replaced. -/
  replaced : Nat
  deriving DecidableEq, Repr

namespace Pass

def start (c : Cursor) : Pass where
  startLine := c.line
  startColumn := signed64 c.column
  lastLine := c.line
  lastColumn := signed64 c.column
  wrapped := false
  resume := c.column + 1
  replaced := 0

def beforeStart (p : Pass) (m : Match) : Bool :=
  (m.number == p.startLine && m.column ≤ p.startColumn) || m.number < p.startLine

def regresses (p : Pass) (m : Match) : Bool :=
  (m.number == p.lastLine && m.column < p.lastColumn) || m.number < p.lastLine

/-- Whether the start of a pass would be moved to where a signed word has no room for it. -/
def overflows (p : Pass) (delta : Int) (m : Match) : Bool :=
  let moved := p.startColumn + delta
  m.number = p.startLine && m.column ≤ p.startColumn &&
    (moved < -Bounds.maxSigned64 - 1 || Bounds.maxSigned64 < moved)

/-- Takes the next match into account, before it is replaced; `delta` is how much a replacement
lengthens its line. `none` ends the pass: it regresses once, to a match before its start, and then
goes on only up to its start. -/
def admit? (p : Pass) (delta : Int) (m : Match) : Option Pass :=
  let p :=
    if m.number = p.startLine ∧ (m.column : Int) ≤ p.startColumn then
      { p with startColumn := p.startColumn + delta }
    else p
  let regressed := p.regresses m
  if regressed && (!p.beforeStart m || p.wrapped) then none
  else
    let p := { p with wrapped := p.wrapped || regressed }
    if (p.wrapped && !p.beforeStart m) || m.column > Line.maxText then none else some p

def advance (p : Pass) (m : Match) (next : Nat) : Pass :=
  { p with lastLine := m.number, lastColumn := next, resume := next, replaced := p.replaced + 1 }

end Pass

inductive PassStep where
  | done (summary : ReplaceSummary) (editor : Editor)
  | more (pass : Pass) (editor : Editor)

def replaceNext (pattern replacement : String) (o : SearchOptions) (p : Pass) (e : Editor) :
    Except Fault PassStep := do
  let delta : Int := Text.size replacement - Text.size pattern
  match ← e.seekFrom pattern o p.resume p.startLine with
  | none => return .done ⟨p.replaced, none⟩ e
  | some m =>
    if p.overflows delta m then throw .overflow
    else match p.admit? delta m with
    | none => return .done ⟨p.replaced, none⟩ e
    | some p =>
      let edited ← (← e.moveTo m).replaceAt m (Text.size pattern) replacement
      match edited.result with
      | .error err => return .done ⟨p.replaced, some err⟩ edited.editor
      | .ok _ =>
        let next := m.column + Text.size replacement
        let after := edited.editor
        return .more (p.advance m next) { after with script := after.script.setColumn next }

/-- Replaces matches until the pass ends, unless there are too many of them to be counted. -/
def replaceMany (pattern replacement : String) (o : SearchOptions) :
    Nat → Pass → Editor → Except Fault (ReplaceSummary × Editor)
  | 0, _, _ => .error .overflow
  | room + 1, p, e => do
    match ← replaceNext pattern replacement o p e with
    | .done summary e => return (summary, e)
    | .more p e => replaceMany pattern replacement o room p e

/-- One replacement more than a word of 64 bits can count. -/
def replaceLimit : Nat := Bounds.count64

def replaceAll (e : Editor) (pattern replacement : String) (o : SearchOptions) :
    Except Fault (ReplaceSummary × Editor) :=
  if e.atMaxColumn then .error .overflow
  else replaceMany pattern replacement o replaceLimit (.start e.script.cursor) e

end Editor

end RobotScript
