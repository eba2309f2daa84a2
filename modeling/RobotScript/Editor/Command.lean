import RobotScript.Editor.Search
/-!
The commands of the editor and what the user is told about them.
-/
namespace RobotScript

inductive EditCommand where
  | insertBefore (text : String)
  | insertAfter (text : String)
  | setLine (text : String)
  | deleteLine
  | moveCursor (count : Int)
  | gotoLine (line : Nat)
  | setColumn (column : Nat)
  | markBegin
  | markEnd
  | unmark
  | copyBlock
  | cutBlock
  | clearBlock
  /-- Without options, the settings say how to search. -/
  | find (pattern : String) (options : Option SearchOptions)
  /-- Searches once more for what was searched for last. -/
  | findNext
  | replace (pattern replacement : String)
  | replaceAll (pattern replacement : String)
  /-- Decides on every line that waits for a decision. -/
  | validate (disposition : Disposition)
  | runMacro (invocation : String)
  | quickMacro (slot : Nat) (fallback : String)
  deriving DecidableEq, Repr

inductive CommandOutcome where
  /-- Nothing changed. -/
  | unchanged
  | changed
  | status (message : String)
  /-- Lines for the clipboard. -/
  | copied (lines : List String)
  | found (m : Match)
  | notFound
  deriving DecidableEq, Repr

def ReplaceSummary.message (s : ReplaceSummary) : String :=
  match s.refused with
  | none => s!"Replaced {s.replaced} occurrence(s)"
  | some err => s!"Replaced {s.replaced} occurrence(s), then stopped: {err.message}"

def unresolvedMessage (count : Nat) : String := s!"{count} unresolved line(s)"

namespace Editor

def mapScript (e : Editor) (f : Script → Script) : Editor := { e with script := f e.script }

def mapScriptM (e : Editor) (f : Script → Except Fault Script) : Except Fault Editor :=
  (f e.script).map fun script => { e with script }

def editOutcome {α : Type} (edited : Edited α) : CommandOutcome × Editor :=
  match edited.result with
  | .ok _ => (.changed, edited.editor)
  | .error err => (.status err.message, edited.editor)

def findAndMove (e : Editor) (search : Search) : Except Fault (CommandOutcome × Editor) := do
  match ← e.seek search.pattern search.options with
  | some m => return (.found m, ← e.moveTo m)
  | none => return (.notFound, e)

def run (e : Editor) (command : EditCommand) : Except Fault (CommandOutcome × Editor) := do
  let cursor := e.script.cursor.handle
  match command with
  | .insertBefore text => return editOutcome (← e.insert cursor .before text)
  | .insertAfter text =>
    let edited ← e.insert cursor .after text
    match edited.result with
    | .ok h =>
      let after := edited.editor
      return (.changed, after.mapScript (·.setCursor h (after.script.cursor.line + 1)))
    | .error err => return (.status err.message, edited.editor)
  | .setLine text => return editOutcome (← e.update cursor text)
  | .deleteLine =>
    let (deleted, script) ← e.script.delete cursor .next
    return (if deleted then .changed else .unchanged, { e with script })
  | .moveCursor count => return (.changed, ← e.mapScriptM (·.moveCursor count))
  | .gotoLine line => return (.changed, ← e.mapScriptM (·.gotoLine line))
  | .setColumn column => return (.changed, e.mapScript (·.setColumn column))
  | .markBegin => return (.changed, e.mapScript (·.placeMark .start))
  | .markEnd => return (.changed, e.mapScript (·.placeMark .stop))
  | .unmark => return (.changed, e.mapScript (·.unmark))
  | .copyBlock => return (.copied e.script.copyBlock, e)
  | .cutBlock =>
    let (lines, script) ← e.script.cutBlock
    return (.copied lines, { e with script })
  | .clearBlock =>
    let (_, script) ← e.script.clearBlock
    return (.changed, { e with script })
  | .find pattern options =>
    let search : Search := ⟨pattern, options.getD e.config.searchOptions⟩
    let (outcome, e) ← e.findAndMove search
    return (outcome, { e with lastSearch := some search })
  | .findNext =>
    match e.lastSearch with
    | some search => e.findAndMove search
    | none => return (.notFound, e)
  | .replace pattern replacement =>
    let edited ← e.replaceOne pattern replacement e.config.searchOptions
    match edited.result with
    | .ok (some m) => return (.found m, edited.editor)
    | .ok none => return (.notFound, edited.editor)
    | .error err => return (.status err.message, edited.editor)
  | .replaceAll pattern replacement =>
    let (summary, e) ← e.replaceAll pattern replacement e.config.searchOptions
    return (.status summary.message, e)
  | .validate disposition =>
    let (remaining, e) ← e.validateAll fun l =>
      if l.disposition = .ignore then some disposition else none
    return (.status (unresolvedMessage remaining), e)
  | .runMacro invocation => return editOutcome (← e.runMacro invocation)
  | .quickMacro slot fallback => return editOutcome (← e.quickMacro slot fallback)

def apply (e : Editor) (command : EditCommand) :
    Except Fault (CommandOutcome × Editor) :=
  e.beginCommand.run command

end Editor

end RobotScript
