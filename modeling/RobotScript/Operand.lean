import RobotScript.Chars.Integer
import RobotScript.Chars.Utf8
import RobotScript.Color
import RobotScript.Instruction
import RobotScript.Token
/-!
The values of arguments: how each kind is read from a token, written in a line, and laid out in a
record. In a record a word of 16 bits is a zero byte and its low and high byte, and a text is its
length with the closing zero, its bytes and a zero byte.
-/
namespace RobotScript

inductive Operand where
  | number (word : UInt16)
  | text (chars : List Char)
  deriving DecidableEq, Repr

namespace Operand

def wordOfInt (n : Int) : UInt16 :=
  UInt16.ofNat (n % 0x10000).toNat

def signed (w : UInt16) : Int :=
  if w.toNat < 0x8000 then w.toNat else (w.toNat : Int) - 0x10000

def readNumber? (cs : List Char) : Option UInt16 :=
  match cs with
  | '$' :: hex => (Chars.readHex 0xFFFF hex).map UInt16.ofNat
  | _ => (Chars.readInt (-0x8000) 0x7FFF cs).map wordOfInt

def ofToken? (kind : ArgKind) (token : Token) : Option Operand :=
  match kind, token with
  | .number, .bare cs => (readNumber? cs).map number
  | .character, .char c => if c.toNat < 256 then some (number (UInt16.ofNat c.toNat)) else none
  | .character, .bare cs => (Chars.readNat 255 cs).map fun n => number (UInt16.ofNat n)
  | .color, .bare cs => (Color.parse? cs).map fun n => number (UInt16.ofNat n)
  | .word, .bare cs | .word, .quoted cs | .str, .bare cs | .str, .quoted cs => some (text cs)
  | _, _ => none

def isIdentifier (cs : List Char) : Bool :=
  !cs.isEmpty && cs.all fun c => c.isAlphanum || c == '_' || c == '$' || c == '.'

def quote (cs : List Char) : List Char :=
  '"' :: cs ++ ['"']

/-- The canonical spelling of an argument. Characters are shown between single quotes where they
are printable, colours by their words, and words bare where they can be. -/
def render (kind : ArgKind) (value : Operand) : List Char :=
  match kind, value with
  | .character, number w =>
    if 32 ≤ w.toNat ∧ w.toNat < 127 ∧ w.toNat ≠ '\''.toNat then ['\'', Char.ofNat w.toNat, '\'']
    else Chars.decimal w.toNat
  | .color, number w =>
    if w.toNat ≤ Color.max then Color.print w.toNat else Chars.decimalInt (signed w)
  | _, number w => Chars.decimalInt (signed w)
  | .word, text cs => if isIdentifier cs then cs else quote cs
  | _, text cs => quote cs

/-- The bytes of an argument in a record; `none` for a text whose length with the closing zero
does not fit in a byte. -/
def encode? : Operand → Option Bytes
  | number w => some [0, UInt8.ofNat w.toNat, UInt8.ofNat (w.toNat / 256)]
  | text cs =>
    if Chars.width cs + 1 ≤ 255 then
      some (UInt8.ofNat (Chars.width cs + 1) :: Chars.encode cs ++ [0])
    else none

/-- Takes the arguments of the given kinds off the front of a record's bytes. Ill-formed parts of
a text are read as replacement characters. -/
def decodeAll? : List ArgKind → Bytes → Option (List Operand × Bytes)
  | [], bs => some ([], bs)
  | _ :: _, [] => none
  | kind :: kinds, marker :: bs =>
    if kind.isNumeric then
      match marker == 0, bs with
      | true, low :: high :: rest => do
        let (values, rest) ← decodeAll? kinds rest
        return (number (UInt16.ofNat (low.toNat + 256 * high.toNat)) :: values, rest)
      | _, _ => none
    else
      let size := marker.toNat
      if size ≠ 0 ∧ bs[size - 1]? = some 0 then do
        let (values, rest) ← decodeAll? kinds (bs.drop size)
        return (text (Chars.decodeLossy (bs.take (size - 1))) :: values, rest)
      else none

end Operand

end RobotScript
