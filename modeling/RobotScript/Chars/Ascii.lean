/-!
Letter case and digits of ASCII characters. Names and searches ignore the case of ASCII letters
only; every other character stands for itself.
-/
namespace RobotScript.Chars

/-- The text with its ASCII letters in lower case. It takes as many bytes as before. -/
def fold (cs : List Char) : List Char :=
  cs.map Char.toLower

def eqIgnoreCase (a b : List Char) : Bool :=
  fold a == fold b

def hexValue? (c : Char) : Option Nat :=
  if c.isDigit then some (c.toNat - '0'.toNat)
  else if 'a' ≤ c ∧ c ≤ 'f' then some (c.toNat - 'a'.toNat + 10)
  else if 'A' ≤ c ∧ c ≤ 'F' then some (c.toNat - 'A'.toNat + 10)
  else none

def decimalValue? (c : Char) : Option Nat :=
  if c.isDigit then some (c.toNat - '0'.toNat) else none

def hexDigits (n : Nat) : List Char :=
  Nat.toDigits 16 n

end RobotScript.Chars
