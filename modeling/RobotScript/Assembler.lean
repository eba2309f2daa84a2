import RobotScript.Statement
/-!
The assembler between the texts of lines and the records of a program.
-/
namespace RobotScript

structure Compiled where
  bytecode : Bytes
  display : String
  args : List ArgKind
  deriving DecidableEq, Repr

structure Decoded where
  display : String
  consumed : Nat
  args : List ArgKind
  deriving DecidableEq, Repr

def compile (text : String) : Except CompileError Compiled := do
  let s ← Statement.parse text.toList
  match s.record? with
  | some bytecode => .ok ⟨bytecode, String.ofList s.render, s.instruction.params⟩
  | none => .error .tooLong

def decode (bs : Bytes) : Except DecodeError Decoded := do
  let body ← Statement.body bs
  match Statement.ofBody? body with
  | some s => .ok ⟨String.ofList s.render, body.length + 2, s.instruction.params⟩
  | none => .error .malformed

def commentOverhead : Nat := 5

/-- The record that keeps a text as a remark. Lengths are taken modulo 256, so the record is
well-formed for texts of up to 252 bytes. -/
def encodeComment (text : String) : Bytes :=
  let cs := text.toList
  let size := UInt8.ofNat (Chars.width cs + 3)
  size :: Instruction.comment.opcode :: UInt8.ofNat (Chars.width cs + 1) ::
    (Chars.encode cs ++ [0, size])

end RobotScript
