/-!
What stops an operation for good, without an answer or a refusal.
-/
namespace RobotScript

inductive Fault where
  /-- An argument for a number whose least value exceeds its greatest, so that no value is in its
  range. -/
  | emptyRange
  /-- A way through the lines that goes round and has no end. -/
  | endless
  /-- A number that its machine word has no room for. -/
  | overflow
  deriving DecidableEq, Repr

def checkedSub (a b : Nat) : Except Fault Nat :=
  if b ≤ a then .ok (a - b) else .error .overflow

end RobotScript
