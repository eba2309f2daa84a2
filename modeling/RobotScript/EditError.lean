/-!
Why an edit is refused. Memory is taken to have room for any number of lines, so no edit is refused
for want of it.
-/
namespace RobotScript

inductive EditError where
  | capacityExceeded (needed max : Nat)
  | unknownMacro (name : String)
  | lineNotFound
  deriving DecidableEq, Repr

def EditError.message : EditError → String
  | capacityExceeded needed max => s!"Program would grow to {needed} bytes (limit {max})"
  | unknownMacro name => s!"Unknown macro: {name}"
  | lineNotFound => "Line no longer exists"

end RobotScript
