import RobotScript.Chars.Utf8
import RobotScript.Json.Basic
/-!
The tokens of a JSON text, read from its bytes. Strings may hold any bytes but control
characters; a token says whether escapes and bytes together spell a text.
-/
namespace RobotScript.Json

inductive Token where
  | objectStart
  | objectEnd
  | arrayStart
  | arrayEnd
  | colon
  | comma
  | null
  | bool (value : Bool)
  | number (numeral : List Char)
  | string (text : Option String)
  deriving DecidableEq, Repr

namespace Token

def charOf (b : UInt8) : Char := Char.ofNat b.toNat

def isSpace (b : UInt8) : Bool :=
  b == 0x20 || b == 0x09 || b == 0x0A || b == 0x0D

def isDigit (b : UInt8) : Bool :=
  0x30 ≤ b && b ≤ 0x39

/-! ### Numerals -/

def fractionOf (bs : Bytes) : Bytes :=
  match bs with
  | 0x2E :: rest =>
    let digits := rest.takeWhile isDigit
    if digits.isEmpty then [] else 0x2E :: digits
  | _ => []

def exponentOf (bs : Bytes) : Bytes :=
  match bs with
  | e :: rest =>
    if e = 0x65 ∨ e = 0x45 then
      let sign := rest.takeWhile (fun b => b == 0x2B || b == 0x2D) |>.take 1
      let digits := (rest.drop sign.length).takeWhile isDigit
      if digits.isEmpty then [] else e :: (sign ++ digits)
    else []
  | [] => []

def wholeOf (bs : Bytes) : Bytes :=
  match bs with
  | 0x30 :: _ => [0x30]
  | _ => bs.takeWhile isDigit

def numeralOf (bs : Bytes) : Bytes :=
  let sign := (bs.takeWhile (· == 0x2D)).take 1
  let whole := wholeOf (bs.drop sign.length)
  if whole.isEmpty then []
  else
    let integer := sign ++ whole
    let fraction := fractionOf (bs.drop integer.length)
    let mantissa := integer ++ fraction
    mantissa ++ exponentOf (bs.drop mantissa.length)

/-! ### Strings -/

/-- A piece of a string: a byte that stands for itself, or a UTF-16 unit given by its number. -/
inductive Piece where
  | byte (b : UInt8)
  | unit (n : Nat)
  deriving DecidableEq, Repr

def shortEscape? (b : UInt8) : Option UInt8 :=
  match charOf b with
  | '"' => some 0x22
  | '\\' => some 0x5C
  | '/' => some 0x2F
  | 'b' => some 0x08
  | 'f' => some 0x0C
  | 'n' => some 0x0A
  | 'r' => some 0x0D
  | 't' => some 0x09
  | _ => none

def unit? (a b c d : UInt8) : Option Nat :=
  Chars.readDigits Chars.hexValue? 16 [charOf a, charOf b, charOf c, charOf d]

/-- Reads a string from behind its opening quote: its pieces, and how many bytes it takes with
the closing quote. -/
def pieces? : Bytes → Option (List Piece × Nat)
  | [] => none
  | 0x22 :: _ => some ([], 1)
  | 0x5C :: 0x75 :: a :: b :: c :: d :: rest => do
    let n ← unit? a b c d
    let (ps, size) ← pieces? rest
    return (.unit n :: ps, size + 6)
  | 0x5C :: e :: rest => do
    let b ← shortEscape? e
    let (ps, size) ← pieces? rest
    return (.byte b :: ps, size + 2)
  | b :: rest => do
    if b < 0x20 || b == 0x5C then none
    else
      let (ps, size) ← pieces? rest
      return (.byte b :: ps, size + 1)

def isHigh (n : Nat) : Bool := 0xD800 ≤ n && n ≤ 0xDBFF

def isLow (n : Nat) : Bool := 0xDC00 ≤ n && n ≤ 0xDFFF

/-- The bytes that the pieces spell; `none` if half of a pair stands alone. -/
def resolve : List Piece → Option Bytes
  | [] => some []
  | .byte b :: ps => (resolve ps).map (b :: ·)
  | .unit n :: ps =>
    if isHigh n then
      match ps with
      | .unit m :: ps =>
        if isLow m then
          let c := Char.ofNat (0x10000 + (n - 0xD800) * 0x400 + (m - 0xDC00))
          (resolve ps).map (Chars.encodeChar c ++ ·)
        else none
      | _ => none
    else if isLow n then none
    else (resolve ps).map (Chars.encodeChar (Char.ofNat n) ++ ·)

def textOf (ps : List Piece) : Option String := do
  let bytes ← resolve ps
  return String.ofList (← Chars.decode? bytes)

/-! ### Tokens -/

def mark? (b : UInt8) : Option Token :=
  match charOf b with
  | '\x7b' => some objectStart
  | '\x7d' => some objectEnd
  | '[' => some arrayStart
  | ']' => some arrayEnd
  | ':' => some colon
  | ',' => some comma
  | _ => none

def words : List (Bytes × Token) := [
  ([0x6E, 0x75, 0x6C, 0x6C], null),
  ([0x74, 0x72, 0x75, 0x65], bool true),
  ([0x66, 0x61, 0x6C, 0x73, 0x65], bool false)]

def first? (bs : Bytes) : Option (Token × Nat) :=
  match bs with
  | [] => none
  | b :: rest =>
    match mark? b with
    | some t => some (t, 1)
    | none =>
      if b = 0x22 then do
        let (ps, size) ← pieces? rest
        return (string (textOf ps), size + 1)
      else
        match words.find? fun (word, _) => word.isPrefixOf bs with
        | some (word, t) => some (t, word.length)
        | none =>
          let numeral := numeralOf bs
          if numeral.isEmpty then none
          else some (number (numeral.map charOf), numeral.length)

def scan? (bs : Bytes) : Option (List Token) :=
  match bs with
  | [] => some []
  | b :: rest =>
    if isSpace b then scan? rest
    else do
      let (t, size) ← first? (b :: rest)
      return t :: (← scan? (rest.drop (size - 1)))
termination_by bs.length
decreasing_by
  · simp
  · simp only [List.length_drop, List.length_cons]
    omega

end Token

end RobotScript.Json
