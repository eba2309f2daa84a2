import RobotScript.Chars.Ascii
/-!
The instructions of a robot: for each its opcode, the word that writes it and the kinds of its
arguments.
-/
namespace RobotScript

inductive ArgKind where
  | number
  | word
  | str
  | character
  | color
  deriving DecidableEq, Repr

def ArgKind.isNumeric : ArgKind → Bool
  | .number | .character | .color => true
  | .word | .str => false

structure Instruction where
  opcode : UInt8
  name : List Char
  params : List ArgKind
  deriving DecidableEq, Repr

namespace Instruction

def blank : Instruction := ⟨47, [], []⟩

def comment : Instruction := ⟨107, ['.'], [.str]⟩

def all : List Instruction := [
  ⟨0, "END".toList, []⟩,
  ⟨1, "DIE".toList, []⟩,
  ⟨2, "WAIT".toList, [.number]⟩,
  ⟨3, "CYCLE".toList, [.number]⟩,
  ⟨5, "CHAR".toList, [.character]⟩,
  ⟨6, "COLOR".toList, [.color]⟩,
  ⟨22, "SET".toList, [.word, .number]⟩,
  ⟨23, "INC".toList, [.word, .number]⟩,
  ⟨24, "DEC".toList, [.word, .number]⟩,
  ⟨36, "GOTO".toList, [.word]⟩,
  ⟨38, "SEND".toList, [.word, .word]⟩,
  blank,
  ⟨103, ['*'], [.str]⟩,
  ⟨106, [':'], [.word]⟩,
  comment]

/-- The instruction that a word names, whatever the case of its letters. The empty word names
none. -/
def ofName? (name : List Char) : Option Instruction :=
  all.find? fun i => !i.name.isEmpty && Chars.eqIgnoreCase i.name name

def ofOpcode? (opcode : UInt8) : Option Instruction :=
  all.find? (·.opcode == opcode)

end Instruction

end RobotScript
