/-!
The standing of a line: it compiles, or the user has chosen, or has yet to choose, what becomes of
it when the program is saved.
-/
namespace RobotScript

inductive Disposition where
  /-- Left out when the program is saved, and the user has yet to decide. -/
  | ignore
  /-- Left out when the program is saved. -/
  | delete
  /-- Kept as a remark. -/
  | comment
  deriving DecidableEq, Repr, Inhabited

inductive Validity where
  | valid
  | invalid (disposition : Disposition)
  deriving DecidableEq, Repr

namespace Disposition

def word : Disposition → String
  | ignore => "ignore"
  | delete => "delete"
  | comment => "comment"

def ofWord? : String → Option Disposition
  | "ignore" => some ignore
  | "delete" => some delete
  | "comment" => some comment
  | _ => none

end Disposition

def Validity.disposition? : Validity → Option Disposition
  | valid => none
  | invalid d => some d

end RobotScript
