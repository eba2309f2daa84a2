/-!
Texts as UTF-8 bytes: widths, cuts that keep characters whole, the encoding, and a reader that
tells well-formed characters from ill-formed parts. The reader takes each longest ill-formed part
that starts like a character for one part, so that a lossy reading shows one replacement
character for it.
-/
namespace RobotScript

abbrev Bytes := List UInt8

namespace Chars

def width : List Char → Nat
  | [] => 0
  | c :: cs => c.utf8Size + width cs

/-- The longest prefix of whole characters that takes at most `budget` bytes. -/
def cut : Nat → List Char → List Char
  | _, [] => []
  | budget, c :: cs => if c.utf8Size ≤ budget then c :: cut (budget - c.utf8Size) cs else []

/-- What is left when the first `n` bytes are dropped, and with them a character that the cut
would split. -/
def dropBytes : Nat → List Char → List Char
  | 0, cs => cs
  | _, [] => []
  | n, c :: cs => dropBytes (n - c.utf8Size) cs

def encodeChar (c : Char) : Bytes :=
  let n := c.toNat
  if n < 0x80 then [UInt8.ofNat n]
  else if n < 0x800 then [UInt8.ofNat (0xC0 + n / 64), UInt8.ofNat (0x80 + n % 64)]
  else if n < 0x10000 then
    [UInt8.ofNat (0xE0 + n / 4096), UInt8.ofNat (0x80 + n / 64 % 64),
      UInt8.ofNat (0x80 + n % 64)]
  else
    [UInt8.ofNat (0xF0 + n / 262144), UInt8.ofNat (0x80 + n / 4096 % 64),
      UInt8.ofNat (0x80 + n / 64 % 64), UInt8.ofNat (0x80 + n % 64)]

def encode (cs : List Char) : Bytes :=
  cs.flatMap encodeChar

/-- A character begun and not ended: the bits read so far, how many bytes are still due, and the
range the next of them must lie in. -/
structure Partial where
  bits : Nat
  due : Nat
  low : Nat
  high : Nat

/-- What a byte that can start a longer character announces. The ranges of the second byte shut
out long spellings, surrogates and what lies above the last code point. -/
def lead? (b : Nat) : Option Partial :=
  if 0xC2 ≤ b ∧ b ≤ 0xDF then some ⟨b - 0xC0, 1, 0x80, 0xBF⟩
  else if b = 0xE0 then some ⟨0, 2, 0xA0, 0xBF⟩
  else if b = 0xED then some ⟨0xD, 2, 0x80, 0x9F⟩
  else if 0xE1 ≤ b ∧ b ≤ 0xEF then some ⟨b - 0xE0, 2, 0x80, 0xBF⟩
  else if b = 0xF0 then some ⟨0, 3, 0x90, 0xBF⟩
  else if 0xF1 ≤ b ∧ b ≤ 0xF3 then some ⟨b - 0xF0, 3, 0x80, 0xBF⟩
  else if b = 0xF4 then some ⟨4, 3, 0x80, 0x8F⟩
  else none

def begin (b : Nat) : List (Option Char) × Option Partial :=
  if b < 0x80 then ([some (Char.ofNat b)], none)
  else match lead? b with
    | some p => ([], some p)
    | none => ([none], none)

/-- Reads one byte. A byte that the character begun cannot go on with ends an ill-formed part and
is read again between characters. -/
def step (pending : Option Partial) (b : Nat) : List (Option Char) × Option Partial :=
  match pending with
  | none => begin b
  | some p =>
    if p.low ≤ b ∧ b ≤ p.high then
      let bits := p.bits * 64 + (b - 0x80)
      if p.due ≤ 1 then ([some (Char.ofNat bits)], none)
      else ([], some ⟨bits, p.due - 1, 0x80, 0xBF⟩)
    else
      let (parts, next) := begin b
      (none :: parts, next)

/-- The parts of a byte string from a pending character on; `none` is an ill-formed part. -/
def partsFrom (pending : Option Partial) : Bytes → List (Option Char)
  | [] => if pending.isSome then [none] else []
  | b :: bs =>
    let (parts, next) := step pending b.toNat
    parts ++ partsFrom next bs

def parts (bs : Bytes) : List (Option Char) :=
  partsFrom none bs

def decodeLossy (bs : Bytes) : List Char :=
  (parts bs).map (·.getD '\uFFFD')

def decode? (bs : Bytes) : Option (List Char) :=
  (parts bs).mapM id

end Chars

end RobotScript
