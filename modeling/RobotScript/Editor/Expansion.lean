import RobotScript.Editor.Update
/-!
Writing texts into lines, new or old, with the expansion of macros. A text that starts with `#`
calls a macro: its lines take the place of the text, the first in the line itself and the others
below it, and each of them may call macros again. Two guards bound the expansion: the depth of
nesting, and the number of macros that one edit expands; a call that they hold back leaves a blank
line. An expansion that is refused part way is taken back.
-/
namespace RobotScript.Editor

abbrev Writer := Editor → Handle → String → Except Fault (Edited Outcome)

/-- Puts a line in, whose number the caller gives the anchor's, and writes a text into it. If the
text is refused, the line is taken out again. -/
def insertWith (write : Writer) (e : Editor) (anchor : Handle) (anchorNumber : Nat)
    (relation : Relation) (text : String) : Except Fault (Edited (Handle × Outcome)) := do
  match e.script.insertLine anchor (some anchorNumber) relation .empty with
  | (.error err, script) => return ⟨.error err, { e with script }⟩
  | (.ok (h, number), script) =>
    let edited ← write { e with script } h text
    match edited.result with
    | .ok outcome => return ⟨.ok (h, outcome), edited.editor⟩
    | .error err =>
      let e := edited.editor
      return ⟨.error err, { e with script := e.script.unlink h number }⟩

/-- Where the next line of an expansion is put: above the line that followed the call, or below
the last line if none did. `added` counts the lines that the expansion has put in so far. -/
def emitPlace (s : Script) (number added : Nat) (boundary : Option Handle) :
    Except Fault (Option (Handle × Nat × Relation)) :=
  match boundary with
  | some h => .ok (some (h, number + 1 + added, .before))
  | none => do return (← s.last?).map fun h => (h, s.lineCount, .after)

def emitRest (write : Writer) (number countBefore : Nat) (boundary : Option Handle) :
    Editor → List String → Except Fault (Edited Unit)
  | e, [] => .ok ⟨.ok (), e⟩
  | e, text :: texts => do
    match ← emitPlace e.script number (e.script.lineCount - countBefore) boundary with
    | none => return ⟨.error .lineNotFound, e⟩
    | some (anchor, anchorNumber, relation) =>
      let edited ← insertWith write e anchor anchorNumber relation text
      match edited.result with
      | .ok _ => emitRest write number countBefore boundary edited.editor texts
      | .error err => return ⟨.error err, edited.editor⟩

/-- Writes the lines of an expansion, the first into the line of the call. A macro without lines
writes one empty line. -/
def emit (write : Writer) (e : Editor) (h : Handle) (number : Nat) (boundary : Option Handle)
    (lines : List String) : Except Fault (Edited Nat) := do
  let edited ← write e h (lines.headD "")
  match edited.result with
  | .error err => return ⟨.error err, edited.editor⟩
  | .ok _ =>
    let rest ← emitRest write number e.script.lineCount boundary edited.editor lines.tail
    return ⟨rest.result.map fun _ => max 1 lines.length, rest.editor⟩

def handlesBetween (s : Script) (h : Handle) (boundary : Option Handle) : List Handle :=
  ((s.links.below h).map (·.handle)).takeWhile fun x => some x != boundary

/-- Whether the way down from a line goes round and does not come by the line that followed it. -/
def overruns (s : Script) (h : Handle) (boundary : Option Handle) : Bool :=
  s.links.endless (s.next? h) && (s.links.below h).all fun x => some x.handle != boundary

def discardBetween (e : Editor) (h : Handle) (number : Nat) (boundary : Option Handle) :
    Except Fault Editor :=
  if overruns e.script h boundary then .error .endless
  else
    let doomed := handlesBetween e.script h boundary
    .ok { e with script := doomed.foldl (fun s x => s.unlink x (number + 1)) e.script }

def expandTemplate (write : Writer) (e : Editor) (h : Handle) (saved : Line) (number : Nat)
    (t : Macro.Template) (args : List Macro.Argument) : Except Fault (Edited Outcome) := do
  let boundary := e.script.next? h
  let values ← t.bind args
  let guards : Guards := ⟨e.guards.depth + 1, e.guards.expansions + 1⟩
  let edited ← emit write { e with guards } h number boundary (t.render values)
  let after := edited.editor
  let after := { after with guards := { after.guards with depth := after.guards.depth - 1 } }
  match edited.result with
  | .ok count => return ⟨.ok (.expanded count), after⟩
  | .error err =>
    let left ← after.discardBetween h number boundary
    return ⟨.error err, left.setLine h saved⟩

def isGuarded (e : Editor) : Bool :=
  e.config.maxMacroRecursion ≤ e.guards.depth || e.config.maxMacroRepeat ≤ e.guards.expansions

/-- Leaves a blank line in place of a macro that is held back. -/
def suppress (e : Editor) (h : Handle) (prior : Line) : Edited Outcome :=
  let edited := e.writePlain h prior ""
  ⟨edited.result.map fun _ => .suppressed, edited.editor⟩

def callsMacro (text : String) : Bool :=
  text.toList.head? == some '#'

def callOf (text : String) : Macro.Invocation :=
  .parse ((Chars.trimStart text.toList).dropWhile (· == '#'))

/-- Writes a text into a line, with macros nested at most `levels` deep. -/
def writeWith : Nat → Writer
  | levels, e, h, text =>
    match e.script.get? h with
    | none => .ok ⟨.error .lineNotFound, e⟩
    | some prior =>
      if callsMacro text then
        let call := callOf text
        match e.macros.get? call.name with
        | none => .ok ⟨.error (.unknownMacro call.name), e⟩
        | some t =>
          match levels with
          | 0 => .ok (e.suppress h prior)
          | levels + 1 =>
            if e.isGuarded then .ok (e.suppress h prior)
            else do
              match ← e.script.numberOf h with
              | none => return ⟨.error .lineNotFound, e⟩
              | some number => expandTemplate (writeWith levels) e h prior number t call.args
      else .ok (e.writePlain h prior text)

def levelsLeft (e : Editor) : Nat := e.config.maxMacroRecursion - e.guards.depth

def update (e : Editor) (h : Handle) (text : String) : Except Fault (Edited Outcome) :=
  writeWith e.levelsLeft e h text

def insertNumbered (e : Editor) (anchor : Handle) (anchorNumber : Nat) (relation : Relation)
    (text : String) : Except Fault (Edited (Handle × Outcome)) :=
  insertWith (writeWith e.levelsLeft) e anchor anchorNumber relation text

/-- Puts in a line with a text next to another line. If it is refused, nothing changes. -/
def insert (e : Editor) (anchor : Handle) (relation : Relation) (text : String) :
    Except Fault (Edited Handle) := do
  match ← e.script.numberOf anchor with
  | none => return ⟨.error .lineNotFound, e⟩
  | some number =>
    let edited ← e.insertNumbered anchor number relation text
    return ⟨edited.result.map (·.1), edited.editor⟩

def insertAtCursor (e : Editor) (text : String) : Except Fault (Edited Handle) :=
  e.insert e.script.cursor.handle .before text

def runMacro (e : Editor) (invocation : String) : Except Fault (Edited Outcome) := do
  let text := String.ofList ('#' :: Chars.trim invocation.toList)
  let edited ← e.insertNumbered e.script.cursor.handle e.script.cursor.line .before text
  return ⟨edited.result.map (·.2), edited.editor⟩

def typeText (e : Editor) (typed : String) : Except Fault (Edited Outcome) := do
  match e.script.currentLine? with
  | none => return ⟨.error .lineNotFound, e⟩
  | some line =>
    let column := Text.size (Text.cut e.script.cursor.column line.text)
    let text := Text.cut Line.maxText (Text.splice line.text column column typed)
    let edited ← e.update e.script.cursor.handle text
    match edited.result with
    | .error _ => return edited
    | .ok _ =>
      let after := edited.editor
      return { edited with
        editor := { after with script := after.script.setColumn (column + Text.size typed) } }

def quickMacro (e : Editor) (slot : Nat) (fallback : String) :
    Except Fault (Edited Outcome) :=
  let name := String.ofList (Chars.decimal slot)
  if (e.macros.get? name).isSome then e.runMacro name else e.typeText fallback

end RobotScript.Editor
