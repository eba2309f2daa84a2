import RobotScript.Chars.Ascii
import RobotScript.Chars.Blank
/-!
Colour words. A colour is written `c`, a background digit and a foreground digit, both
hexadecimal; a question mark in place of a digit keeps whatever colour is there. The values run
from 0 to 288: two digits give `16 * background + foreground`, a kept background gives
`256 + foreground`, a kept foreground `272 + background`, and `c??` keeps both.
-/
namespace RobotScript.Color

def max : Nat := 288

def keptBackground : Nat := 256

def keptForeground : Nat := 272

def parse? (cs : List Char) : Option Nat :=
  match Chars.trim cs with
  | [k, background, foreground] =>
    if k = 'c' ∨ k = 'C' then
      match background, foreground with
      | '?', '?' => some max
      | '?', f => (Chars.hexValue? f).map (keptBackground + ·)
      | b, '?' => (Chars.hexValue? b).map (keptForeground + ·)
      | b, f => do return 16 * (← Chars.hexValue? b) + (← Chars.hexValue? f)
    else none
  | _ => none

def digit (n : Nat) : Char :=
  (Nat.digitChar (n % 16)).toUpper

def print (color : Nat) : List Char :=
  if color = max then ['c', '?', '?']
  else if keptForeground ≤ color ∧ color < max then ['c', digit (color - keptForeground), '?']
  else if keptBackground ≤ color ∧ color < keptForeground then
    ['c', '?', digit (color - keptBackground)]
  else ['c', digit (color / 16), digit color]

end RobotScript.Color
