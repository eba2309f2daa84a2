import RobotScript.Chars.Ascii
/-!
Reading and writing integers. A written integer is an optional sign and at least one digit, with
nothing before, between or after; it is read only if its value lies within the bounds.
-/
namespace RobotScript.Chars

def readDigits (value? : Char → Option Nat) (base : Nat) (cs : List Char) : Option Nat :=
  if cs.isEmpty then none
  else cs.foldlM (fun n c => (value? c).map (n * base + ·)) 0

def readNatWith (value? : Char → Option Nat) (base bound : Nat) (cs : List Char) : Option Nat :=
  let digits := match cs with
    | '+' :: r => r
    | _ => cs
  (readDigits value? base digits).filter (· ≤ bound)

def readNat (bound : Nat) (cs : List Char) : Option Nat :=
  readNatWith decimalValue? 10 bound cs

def readHex (bound : Nat) (cs : List Char) : Option Nat :=
  readNatWith hexValue? 16 bound cs

def readInt (low high : Int) (cs : List Char) : Option Int :=
  let value : Option Int := match cs with
    | '-' :: r => (readDigits decimalValue? 10 r).map fun n => -(n : Int)
    | '+' :: r => (readDigits decimalValue? 10 r).map Int.ofNat
    | _ => (readDigits decimalValue? 10 cs).map Int.ofNat
  value.filter fun n => low ≤ n && n ≤ high

def decimal (n : Nat) : List Char :=
  Nat.toDigits 10 n

def decimalInt : Int → List Char
  | .ofNat n => decimal n
  | .negSucc n => '-' :: decimal (n + 1)

end RobotScript.Chars
