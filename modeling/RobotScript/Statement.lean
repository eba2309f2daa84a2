import RobotScript.Operand
/-!
Statements: an instruction with the values of its arguments. A statement stands between the text
of a line and its record: text is parsed into a statement and a statement rendered as its
canonical text, and a statement is laid out as a record and read back from one.

A record is `[L] [opcode] [arguments] [L]`, where `L` counts the bytes between the two.
-/
namespace RobotScript

inductive CompileError where
  | unknownCommand (name : String)
  | missingArgument (command : String) (index : Nat)
  | invalidArgument (command token : String)
  | trailingInput (command token : String)
  | unterminatedString
  | tooLong
  deriving DecidableEq, Repr

def CompileError.message : CompileError → String
  | unknownCommand name => s!"Unknown command: {name}"
  | missingArgument command index => s!"{command}: missing argument {index}"
  | invalidArgument command token => s!"{command}: invalid argument `{token}`"
  | trailingInput command token => s!"{command}: unexpected `{token}`"
  | unterminatedString => "Unterminated string"
  | tooLong => "Line too long to encode"

inductive DecodeError where
  | endOfProgram
  | malformed
  deriving DecidableEq, Repr

def DecodeError.message : DecodeError → String
  | endOfProgram => "End of program"
  | malformed => "Malformed record"

structure Statement where
  instruction : Instruction
  operands : List Operand
  deriving DecidableEq, Repr

namespace Statement

def blank : Statement := ⟨.blank, []⟩

def comment (payload : List Char) : Statement := ⟨.comment, [.text payload]⟩

def unquote (cs : List Char) : List Char :=
  match cs with
  | '"' :: rest => if rest.getLast? = some '"' then rest.dropLast else cs
  | _ => cs

/-- Splits a line that is not empty into the word of its instruction and what follows. The
symbols `*` and `:` may be glued to their argument. -/
def splitName (cs : List Char) : List Char × List Char :=
  match cs with
  | '*' :: rest => (['*'], rest)
  | ':' :: rest => ([':'], rest)
  | _ => (cs.takeWhile (! Chars.isBlank ·), cs.dropWhile (! Chars.isBlank ·))

def readOperands (command : String) :
    Nat → List ArgKind → List Token → Except CompileError (List Operand)
  | _, [], _ => .ok []
  | index, _ :: _, [] => .error (.missingArgument command (index + 1))
  | index, kind :: kinds, token :: tokens => do
    let value ← match Operand.ofToken? kind token with
      | some value => .ok value
      | none => .error (.invalidArgument command (String.ofList token.source))
    return value :: (← readOperands command (index + 1) kinds tokens)

/-- Reads the arguments of an instruction. Surplus arguments are found before missing or invalid
ones. -/
def ofArguments (i : Instruction) (rest : List Char) : Except CompileError Statement := do
  let command := String.ofList i.name
  let tokens ← match Token.scan? rest with
    | some tokens => .ok tokens
    | none => .error .unterminatedString
  match tokens[i.params.length]? with
  | some token => .error (.trailingInput command (String.ofList token.source))
  | none => return ⟨i, ← readOperands command 0 i.params tokens⟩

/-- Reads the text of a line. A line that starts with a point is a remark, whose text loses the
blanks around it and one pair of quotes. -/
def parse (cs : List Char) : Except CompileError Statement :=
  match Chars.trim cs with
  | [] => .ok blank
  | '.' :: rest => .ok (comment (unquote (Chars.trim rest)))
  | line =>
    let (name, rest) := splitName line
    match Instruction.ofName? name with
    | some i => ofArguments i rest
    | none => .error (.unknownCommand (String.ofList name))

def render (s : Statement) : List Char :=
  s.instruction.name ++
    (s.instruction.params.zip s.operands).flatMap fun (kind, value) => ' ' :: value.render kind

def frame (body : Bytes) : Bytes :=
  UInt8.ofNat body.length :: body ++ [UInt8.ofNat body.length]

/-- The record of a statement, or `none` if a text or the record is too long for the bytes that
count them. -/
def record? (s : Statement) : Option Bytes := do
  let args ← s.operands.mapM Operand.encode?
  let body := s.instruction.opcode :: args.flatten
  if body.length ≤ 255 then some (frame body) else none

/-- The body of the record that the bytes start with. A zero byte in place of a length ends the
program. -/
def body (bs : Bytes) : Except DecodeError Bytes :=
  match bs with
  | [] => .error .malformed
  | size :: rest =>
    if size = 0 then .error .endOfProgram
    else if rest[size.toNat]? = some size then .ok (rest.take size.toNat)
    else .error .malformed

def ofBody? (bs : Bytes) : Option Statement :=
  match bs with
  | [] => none
  | opcode :: args => do
    let i ← Instruction.ofOpcode? opcode
    let (operands, rest) ← Operand.decodeAll? i.params args
    if rest.isEmpty then some ⟨i, operands⟩ else none

end Statement

end RobotScript
