import RobotScript.Editor.Basic
/-!
Writing a text that calls no macro into a line, and choosing what becomes of lines that do not
compile. Text, record and size of a line change together or not at all.
-/
namespace RobotScript

inductive Outcome where
  /-- It compiles, and the line holds its canonical text. -/
  | compiled
  /-- It does not compile. -/
  | invalid (disposition : Disposition)
  /-- It called a macro of some lines, of which the line holds the first. -/
  | expanded (lines : Nat)
  /-- It called a macro that the guards held back, and the line is blank. -/
  | suppressed
  deriving DecidableEq, Repr

structure InvalidLine where
  handle : Handle
  number : Nat
  text : String
  disposition : Disposition
  error : String
  deriving DecidableEq, Repr

namespace Editor

def setLine (e : Editor) (h : Handle) (line : Line) : Editor :=
  { e with script := e.script.setLine h line }

/-- The line for a text that does not compile and takes the place of one of `old` bytes. A remark
that there is no room for is left to the user's decision. -/
def invalidLine (e : Editor) (text : String) (disposition : Disposition) (old : Nat) : Line :=
  let text := Text.cut Line.maxText text
  match disposition with
  | .comment =>
    let remark := Text.cut Line.maxCommentText text
    match e.script.checkCapacity old (Line.commentSize remark) with
    | .ok () => .invalid remark .comment
    | .error _ => .invalid text .ignore
  | d => .invalid text d

def setInvalid (e : Editor) (h : Handle) (text : String) (disposition : Disposition)
    (old : Nat) : Edited Outcome :=
  let line := e.invalidLine text disposition old
  ⟨.ok (.invalid (line.validity.disposition?.getD disposition)), e.setLine h line⟩

def dispositionFor (e : Editor) (prior : Line) : Disposition :=
  prior.validity.disposition?.getD e.config.defaultInvalid

/-- The disposition of a text that compiles to one that is too long. A line that was kept as a
remark is treated as one that had no disposition. -/
def dispositionForLong (e : Editor) (prior : Line) : Disposition :=
  match prior.validity with
  | .invalid .ignore => .ignore
  | .invalid .delete => .delete
  | _ => e.config.defaultInvalid

def writePlain (e : Editor) (h : Handle) (prior : Line) (text : String) : Edited Outcome :=
  match compile text with
  | .error _ => e.setInvalid h text (e.dispositionFor prior) prior.size
  | .ok c =>
    if Text.size c.display > Line.maxText then
      e.setInvalid h c.display (e.dispositionForLong prior) prior.size
    else
      match e.script.checkCapacity prior.size c.bytecode.length with
      | .error err => ⟨.error err, e⟩
      | .ok () => ⟨.ok .compiled, e.setLine h (.compiled c.display c.bytecode c.args)⟩

/-- Chooses what becomes of a line that does not compile. A line that compiles is left alone, and
so is one that there is no room for as a remark. -/
def setDisposition (e : Editor) (h : Handle) (d : Disposition) : Edited Validity :=
  match e.script.get? h with
  | none => ⟨.error .lineNotFound, e⟩
  | some line =>
    match line.validity, d with
    | .valid, _ => ⟨.ok .valid, e⟩
    | .invalid _, .comment =>
      let text := Text.cut Line.maxCommentText line.text
      let size := Line.commentSize text
      match e.script.checkCapacity line.size size with
      | .ok () =>
        ⟨.ok (.invalid d), e.setLine h { line with text, size, validity := .invalid .comment }⟩
      | .error err => ⟨.error err, e⟩
    | .invalid _, d =>
      ⟨.ok (.invalid d), e.setLine h { line with size := 0, validity := .invalid d }⟩

/-- Why a line does not compile. A line that does was too long in its canonical form. -/
def reasonFor (text : String) : String :=
  match compile text with
  | .error err => err.message
  | .ok _ => "Line too long"

def invalidLines (e : Editor) : List InvalidLine :=
  e.script.entries.zipIdx.filterMap fun (entry, i) =>
    entry.line.validity.disposition?.map fun d =>
      ⟨entry.handle, i + 1, entry.line.text, d, reasonFor entry.line.text⟩

def applyDecision (decide : InvalidLine → Option Disposition) (e : Editor) (l : InvalidLine) :
    Editor :=
  match decide l with
  | none => e
  | some d => if d = l.disposition then e else (e.setDisposition l.handle d).editor

def unresolvedCount (e : Editor) : Nat :=
  e.script.lines.countP (·.validity == .invalid .ignore)

/-- Asks for a decision on each line that does not compile and applies it; counts the lines that
still wait for one. -/
def validateAll (e : Editor) (decide : InvalidLine → Option Disposition) :
    Except Fault (Nat × Editor) :=
  let decided := e.invalidLines.foldl (applyDecision decide) e
  e.script.throughLines (decided.unresolvedCount, decided)

end Editor

end RobotScript
