/-!
The bounds of whole numbers that are kept in words of 32 and 64 bits.
-/
namespace RobotScript.Bounds

def count32 : Nat := 0x100000000

def count64 : Nat := 0x10000000000000000

def max32 : Nat := 0xFFFFFFFF

def max64 : Nat := 0xFFFFFFFFFFFFFFFF

def minSigned32 : Int := -0x80000000

def maxSigned32 : Int := 0x7FFFFFFF

def maxSigned64 : Int := 0x7FFFFFFFFFFFFFFF

end RobotScript.Bounds
