import Std.Data.ExtTreeMap
/-!
Handles of lines. A handle names a slot and the generation of its use, so that a handle to a line
that is gone does not name the line that has its slot now. Generations are 32-bit words. Slots are
numbered without a bound, as memory is taken to have room for any number of lines; 32 bits are
enough for their numbers as long as fewer than 2 ^ 32 lines are there at once.
-/
namespace RobotScript

structure Handle where
  slot : Nat
  generation : UInt32
  deriving DecidableEq, Repr

namespace Handle

def top : Handle := ⟨0, 0⟩

def isTop (h : Handle) : Bool := h == top

instance : Ord Handle where
  compare := compareLex (compareOn slot) (compareOn generation)

instance : Std.TransOrd Handle :=
  inferInstanceAs (Std.TransCmp (compareLex (compareOn slot) (compareOn generation)))

instance : Std.LawfulEqOrd Handle where
  eq_of_compare {a b} same := by
    rcases compareLex_eq_eq.mp same with ⟨slot, generation⟩
    have slot : a.slot = b.slot := Std.LawfulEqCmp.eq_of_compare slot
    have generation : a.generation = b.generation := Std.LawfulEqCmp.eq_of_compare generation
    cases a
    cases b
    cases slot
    cases generation
    rfl

end Handle

/-- The slots of a script: the generation each is in, and those that are free, the last freed
first. Slot 0 belongs to the place above the first line. -/
structure HandlePool where
  generations : Array UInt32
  free : List Nat
  deriving DecidableEq, Repr

namespace HandlePool

def ofCount (count : Nat) : HandlePool :=
  ⟨Array.replicate (count + 1) 0, []⟩

def allocate (p : HandlePool) : Handle × HandlePool :=
  match p.free with
  | slot :: free => (⟨slot, p.generations.getD slot 0⟩, { p with free })
  | [] => (⟨p.generations.size, 0⟩, { p with generations := p.generations.push 0 })

def release (p : HandlePool) (h : Handle) : HandlePool where
  generations := p.generations.modify h.slot (· + 1)
  free := h.slot :: p.free

end HandlePool

end RobotScript
