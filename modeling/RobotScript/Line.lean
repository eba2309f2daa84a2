import RobotScript.Assembler
import RobotScript.Text
import RobotScript.Validity
/-!
The lines of a script. A line keeps five things: its text, the record that the text compiles to, the
number of bytes that it is counted with, the kinds of the arguments, and its standing. Each change
of a line writes the fields that it has to; that they fit together is proved, not built in.
-/
namespace RobotScript

structure Line where
  text : String
  bytecode : Bytes
  size : Nat
  args : List ArgKind
  validity : Validity
  deriving DecidableEq, Repr

namespace Line

def maxText : Nat := 240

/-- The longest text of a line that is kept as a remark, in bytes. -/
def maxCommentText : Nat := 236

def commentSize (text : String) : Nat :=
  Text.size text + commentOverhead

def compiled (text : String) (bytecode : Bytes) (args : List ArgKind) : Line :=
  ⟨text, bytecode, bytecode.length, args, .valid⟩

/-- How many bytes a text that does not compile is counted with. -/
def sizeUnder (text : String) : Disposition → Nat
  | .comment => commentSize text
  | .ignore | .delete => 0

def invalid (text : String) (d : Disposition) : Line :=
  ⟨text, [], sizeUnder text d, [], .invalid d⟩

def empty : Line := compiled "" [] []

def blank : Line := compiled "" (Statement.frame [Instruction.blank.opcode]) []

def sizeOfAll : List Line → Nat
  | [] => 0
  | l :: ls => l.size + sizeOfAll ls

def isBlank (l : Line) : Bool :=
  l.text.isEmpty

def programBytes (l : Line) : Bytes :=
  match l.validity with
  | .valid => l.bytecode
  | .invalid .comment => encodeComment l.text
  | .invalid _ => []

end Line

end RobotScript
