import RobotScript.Macro.Template
/-!
The macros that a session knows, in the order in which their names came. A name stands for one
macro, whatever the case of its letters.
-/
namespace RobotScript.Macro

structure Library where
  templates : List Template
  deriving DecidableEq, Repr

namespace Library

def empty : Library := ⟨[]⟩

/-- Puts a template where another of its name stands, or at the end. -/
def put (t : Template) : List Template → List Template
  | [] => [t]
  | u :: us => if Chars.eqIgnoreCase u.name.toList t.name.toList then t :: us else u :: put t us

def insert (l : Library) (t : Template) : Library :=
  ⟨put t l.templates⟩

def ofList (ts : List Template) : Library :=
  ts.foldl insert empty

def get? (l : Library) (name : String) : Option Template :=
  l.templates.find? fun t => Chars.eqIgnoreCase t.name.toList (Chars.trim name.toList)

end Library

end RobotScript.Macro
