import RobotScript.Editor.Command
/-!
What a client can ask of an editor, besides looking at it, and the editors that come of asking.
-/
namespace RobotScript

inductive Edit where
  | update (h : Handle) (text : String)
  | insert (anchor : Handle) (relation : Relation) (text : String)
  | insertAtCursor (text : String)
  | runMacro (invocation : String)
  | quickMacro (slot : Nat) (fallback : String)
  | setDisposition (h : Handle) (d : Disposition)
  | insertBlank (anchor : Handle) (relation : Relation)
  deriving DecidableEq, Repr

inductive Operation where
  | edit (edit : Edit)
  | command (command : EditCommand)
  | beginCommand
  | load (program : Bytes)
  | setMacros (macros : Macro.Library)
  | validateAll (decide : InvalidLine → Option Disposition)
  | replaceOne (pattern replacement : String) (o : SearchOptions)
  | replaceAll (pattern replacement : String) (o : SearchOptions)
  | delete (h : Handle) (focus : Focus)
  | moveCursor (count : Int)
  | gotoLine (number : Nat)
  | setColumn (column : Nat)
  | placeMark (endpoint : Endpoint)
  | unmark
  | clearBlock
  | cutBlock

def Edited.forget {α : Type} (edited : Edited α) : Edited Unit :=
  ⟨edited.result.map fun _ => (), edited.editor⟩

namespace Editor

def attempt (e : Editor) (edit : Edit) : Except Fault (Edited Unit) :=
  match edit with
  | .update h text => (e.update h text).map Edited.forget
  | .insert anchor relation text => (e.insert anchor relation text).map Edited.forget
  | .insertAtCursor text => (e.insertAtCursor text).map Edited.forget
  | .runMacro invocation => (e.runMacro invocation).map Edited.forget
  | .quickMacro slot fallback => (e.quickMacro slot fallback).map Edited.forget
  | .setDisposition h d => .ok (e.setDisposition h d).forget
  | .insertBlank anchor relation => do
    let (result, script) ← e.script.insertBlank anchor relation
    return ⟨result.map fun _ => (), { e with script }⟩

def perform (e : Editor) (operation : Operation) : Except Fault Editor :=
  match operation with
  | .edit edit => (e.attempt edit).map (·.editor)
  | .command command => (e.apply command).map (·.2)
  | .beginCommand => .ok e.beginCommand
  | .load program => .ok (e.load program)
  | .setMacros macros => .ok { e with macros }
  | .validateAll decide => (e.validateAll decide).map (·.2)
  | .replaceOne pattern replacement o => (e.replaceOne pattern replacement o).map (·.editor)
  | .replaceAll pattern replacement o => (e.replaceAll pattern replacement o).map (·.2)
  | .delete h focus => e.mapScriptM fun s => (s.delete h focus).map (·.2)
  | .moveCursor count => e.mapScriptM (·.moveCursor count)
  | .gotoLine number => e.mapScriptM (·.gotoLine number)
  | .setColumn column => .ok (e.mapScript (·.setColumn column))
  | .placeMark endpoint => .ok (e.mapScript (·.placeMark endpoint))
  | .unmark => .ok (e.mapScript (·.unmark))
  | .clearBlock => e.mapScriptM fun s => s.clearBlock.map (·.2)
  | .cutBlock => e.mapScriptM fun s => s.cutBlock.map (·.2)

/-- The editors that come of a new one by operations in any order. -/
inductive Reachable (c : Config) : Editor → Prop where
  | new : Reachable c (.new c)
  | perform {e e' : Editor} (operation : Operation) :
    Reachable c e → e.perform operation = .ok e' → Reachable c e'

end Editor

end RobotScript
