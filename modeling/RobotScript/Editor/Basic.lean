import RobotScript.Config
import RobotScript.Macro.Library
import RobotScript.Program
import RobotScript.Script.Block
/-!
The editor: a script with the settings, the macros, the guards that bound the expansion of macros,
and the last search.
-/
namespace RobotScript

/-- How far macros have been expanded: how deep the expansion is nested, and how many macros the
edit has expanded. -/
structure Guards where
  depth : Nat
  expansions : Nat
  deriving DecidableEq, Repr

structure SearchOptions where
  wrap : Bool := true
  caseSensitive : Bool := false
  deriving DecidableEq, Repr

structure Search where
  pattern : String
  options : SearchOptions
  deriving DecidableEq, Repr

structure Editor where
  script : Script
  config : Config
  macros : Macro.Library
  guards : Guards
  lastSearch : Option Search
  deriving Repr

structure Edited (α : Type) where
  result : Except EditError α
  editor : Editor

def Config.searchOptions (c : Config) : SearchOptions := ⟨c.wrapSearch, c.caseSensitive⟩

namespace Editor

/-- An editor that holds one blank line, if there is room for it. -/
def new (config : Config) : Editor where
  script := (Script.ofLines config.maxSize []).seed
  config := config
  macros := .empty
  guards := ⟨0, 0⟩
  lastSearch := none

def beginCommand (e : Editor) : Editor := { e with guards := ⟨0, 0⟩ }

def lineOfRecord (r : Record) : Line := .compiled r.decoded.display r.bytes r.decoded.args

def programBody (program : Bytes) : Bytes :=
  match program with
  | b :: rest => if b = programPrologue then rest else program
  | [] => []

/-- Loads a program in place of the script. The records are loaded as far as they decode, and
handles start anew: one from before names the new line that has its slot, if there is one. -/
def load (e : Editor) (program : Bytes) : Editor :=
  let records := (splitRecords (programBody program)).1
  let script := Script.ofLines e.config.maxSize (records.map lineOfRecord)
  let script := match script.first? with
    | some h => script.setCursor h 1
    | none => script.seed
  { e.beginCommand with script, lastSearch := none }

end Editor

end RobotScript
