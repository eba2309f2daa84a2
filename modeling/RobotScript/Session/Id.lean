import RobotScript.Chars.Ascii
/-!
Identifiers of sessions: numbers of 128 bits, written as 32 hexadecimal digits in groups.
-/
namespace RobotScript

structure SessionId where
  value : BitVec 128
  deriving DecidableEq, Repr

namespace SessionId

def digits (id : SessionId) : List Char :=
  let ds := Chars.hexDigits id.value.toNat
  List.replicate (32 - ds.length) '0' ++ ds

def grouped (id : SessionId) : String :=
  let ds := id.digits
  let part (start size : Nat) := (ds.drop start).take size
  String.ofList (List.intercalate ['-'] [part 0 8, part 8 4, part 12 4, part 16 4, part 20 12])

def display (id : SessionId) : String := s!"Session({id.grouped})"

end SessionId

end RobotScript
