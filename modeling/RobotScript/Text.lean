import RobotScript.Chars.Utf8
/-!
Sizes and cuts of strings, counted in bytes of UTF-8.
-/
namespace RobotScript.Text

def size (s : String) : Nat :=
  Chars.width s.toList

def bytes (s : String) : Bytes :=
  Chars.encode s.toList

/-- The longest prefix of whole characters within a number of bytes. -/
def cut (budget : Nat) (s : String) : String :=
  String.ofList (Chars.cut budget s.toList)

def splice (s : String) (start stop : Nat) (insertion : String) : String :=
  String.ofList
    (Chars.cut start s.toList ++ insertion.toList ++ Chars.dropBytes stop s.toList)

end RobotScript.Text
