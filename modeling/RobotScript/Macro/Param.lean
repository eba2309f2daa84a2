import RobotScript.Bounds
import RobotScript.Chars.Blank
import RobotScript.Chars.Integer
import RobotScript.Chars.Utf8
import RobotScript.Color
import RobotScript.Fault
/-!
The parameters of a macro: their kinds, how an argument's text gives a value, and how a value is
written into a line.
-/
namespace RobotScript.Macro

inductive ParamKind where
  /-- A number, brought into a range. -/
  | number (min max : Int)
  /-- A text, cut to a length in bytes. -/
  | text (maxLength : Nat)
  /-- A character, held as its code. -/
  | character
  /-- A colour, held as its number. -/
  | color
  deriving DecidableEq, Repr

inductive Value where
  | number (n : Int)
  | text (s : String)
  deriving DecidableEq, Repr

/-- Puts a digit behind a number. Where a signed word of 64 bits has no room for what comes of it,
its greatest value stands for that. -/
def pushDigit (n : Int) (c : Char) : Int :=
  let tens := min Bounds.maxSigned64 (n * 10)
  min Bounds.maxSigned64 (tens + (c.toNat - '0'.toNat : Nat))

/-- The integer that a text starts with, after blanks: a sign, if any, and digits up to the first
character that is none, as far as a signed word of 64 bits has room for it. Without digits it is
zero. -/
def leadingInt (cs : List Char) : Int :=
  let digits (ds : List Char) : Int := (ds.takeWhile Char.isDigit).foldl pushDigit 0
  match Chars.trimStart cs with
  | '-' :: ds => -digits ds
  | '+' :: ds => digits ds
  | ds => digits ds

namespace ParamKind

/-- The value that an argument's text gives, or `none` if it gives none and the parameter keeps
its value. -/
def read (kind : ParamKind) (raw : List Char) : Except Fault (Option Value) :=
  match kind with
  | number low high =>
    if low ≤ high then .ok (some (.number (max low (min high (leadingInt raw)))))
    else .error .emptyRange
  | text maxLength => .ok (some (.text (String.ofList (Chars.cut maxLength raw))))
  | character =>
    let code : Int := match raw with
      | '\'' :: c :: _ => c.toNat
      | ['\''] => 0
      | _ => leadingInt raw
    .ok (some (.number (code.bmod Bounds.count32)))
  | color => .ok ((Color.parse? raw).map fun n => .number n)

def charOfCode (n : Int) : Char :=
  let code := (n % Bounds.count32).toNat
  if code.isValidChar then Char.ofNat code else '?'

/-- A number as two or more hexadecimal digits, negative ones as 32-bit words. -/
def hexByte (n : Int) : List Char :=
  let digits := Chars.hexDigits (n % Bounds.count32).toNat
  List.replicate (2 - digits.length) '0' ++ digits

def render (kind : ParamKind) (hex : Bool) (value : Value) : List Char :=
  match kind, value with
  | _, .text s => s.toList
  | number .., .number n => if hex then hexByte n else Chars.decimalInt n
  | text .., .number n => Chars.decimalInt n
  | character, .number n => ['\'', charOfCode n, '\'']
  | color, .number n => Color.print (max 0 (min (Color.max : Int) n)).toNat

end ParamKind

end RobotScript.Macro
