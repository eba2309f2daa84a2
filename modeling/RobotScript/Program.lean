import RobotScript.Assembler
/-!
The bytes of a program split into records, and the texts of records.
-/
namespace RobotScript

structure Record where
  bytes : Bytes
  decoded : Decoded
  deriving DecidableEq, Repr

def splitRecords (bs : Bytes) : List Record × Bytes :=
  match bs with
  | [] => ([], [])
  | b :: rest =>
    match decode (b :: rest) with
    | .ok d =>
      let (records, left) := splitRecords (rest.drop (d.consumed - 1))
      (⟨(b :: rest).take d.consumed, d⟩ :: records, left)
    | .error _ => ([], b :: rest)
termination_by bs.length
decreasing_by
  simp only [List.length_drop, List.length_cons]
  omega

/-- The texts of the records up to the end of the program. Anything else behind the records
makes the whole malformed. -/
def decodeRecords (bs : Bytes) : Except DecodeError (List String) :=
  let (records, left) := splitRecords bs
  match left with
  | [] => .ok (records.map (·.decoded.display))
  | b :: rest =>
    match decode (b :: rest) with
    | .error .endOfProgram => .ok (records.map (·.decoded.display))
    | _ => .error .malformed

end RobotScript
