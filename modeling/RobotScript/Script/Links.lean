import RobotScript.Handle
import RobotScript.Line
/-!
Lines held together by links: each line knows the place above it and the line below it. A link may
lead to a line that is gone, and lines may hang below one that is gone; such lines count, though no
way from the top leads to them. A way may also come back to where it was, and then has no end.
-/
namespace RobotScript

structure Entry where
  handle : Handle
  line : Line
  deriving DecidableEq, Repr

def Entry.indexIn? (es : List Entry) (h : Handle) : Option Nat := es.findIdx? (·.handle == h)

inductive Relation where
  | before
  | after
  deriving DecidableEq, Repr

structure Node where
  line : Line
  above : Handle
  below : Option Handle
  deriving DecidableEq, Repr

structure Links where
  first : Option Handle
  nodes : Std.ExtTreeMap Handle Node
  deriving DecidableEq, Repr

namespace Links

def chainFrom (above : Handle) : List Entry → Std.ExtTreeMap Handle Node
  | [] => ∅
  | e :: es => (chainFrom e.handle es).insert e.handle ⟨e.line, above, es.head?.map (·.handle)⟩

def ofEntries (es : List Entry) : Links :=
  ⟨es.head?.map (·.handle), chainFrom .top es⟩

/-! ### Looking up -/

def node? (l : Links) (h : Handle) : Option Node := l.nodes[h]?

def get? (l : Links) (h : Handle) : Option Line := (l.node? h).map (·.line)

def entryAt? (l : Links) (h : Handle) : Option Entry :=
  (l.get? h).map fun line => ⟨h, line⟩

def next? (l : Links) (h : Handle) : Option Handle :=
  if h.isTop then l.first else (l.node? h).bind (·.below)

def above? (l : Links) (h : Handle) : Option Handle :=
  (l.node? h).map (·.above)

/-- The way down from a place, at most so many steps far. A line that is gone ends it. -/
def walk (l : Links) : Nat → Option Handle → List Handle
  | steps + 1, some h => h :: walk l steps (l.next? h)
  | _, _ => []

/-- More steps than any way takes that does not come back to where it was. -/
def steps (l : Links) : Nat := l.nodes.size + 3

/-- Whether the way down from a place has no end. -/
def endless (l : Links) (h? : Option Handle) : Bool := (l.walk l.steps h?).length == l.steps

/-- The lines on the way down from a place, which is not one of them. Of a way without an end they
are those that it comes by. -/
def below (l : Links) (h : Handle) : List Entry :=
  (l.walk l.steps (l.next? h)).filterMap l.entryAt?

def last? (l : Links) : Option Handle :=
  (l.walk l.steps l.first).getLast?

/-! ### Changing -/

def linkBelow (l : Links) (h : Handle) (target : Option Handle) : Links :=
  if h.isTop then { l with first := target }
  else { l with nodes := l.nodes.modify h fun n => { n with below := target } }

def linkAbove (l : Links) (h? : Option Handle) (target : Handle) : Links :=
  match h? with
  | some h => { l with nodes := l.nodes.modify h fun n => { n with above := target } }
  | none => l

def setLine (l : Links) (h : Handle) (line : Line) : Links :=
  { l with nodes := l.nodes.modify h fun n => { n with line } }

def put (l : Links) (above : Handle) (below : Option Handle) (e : Entry) : Links :=
  let l := { l with nodes := l.nodes.insert e.handle ⟨e.line, above, below⟩ }
  (l.linkBelow above (some e.handle)).linkAbove below e.handle

/-- Puts a line next to another. Below a place that is gone it hangs from there; above the top there
is no place, nor above a line that is gone. -/
def insert? (l : Links) (anchor : Handle) (relation : Relation) (e : Entry) : Option Links :=
  match relation with
  | .after => some (l.put anchor (l.next? anchor) e)
  | .before => (l.above? anchor).map fun above => l.put above (some anchor) e

def erase (l : Links) (h : Handle) : Links :=
  match l.node? h with
  | none => l
  | some n =>
    let l := (l.linkBelow n.above n.below).linkAbove n.below n.above
    { l with nodes := l.nodes.erase h }

/-- Takes out the lines on the way down from one to another, or to where the way ends, and gives
them in order. Links to them are left as they are. -/
def takeOut (stop : Handle) : Nat → Handle → Links → List Entry × Links
  | 0, _, l => ([], l)
  | steps + 1, h, l =>
    match l.node? h with
    | none => ([], l)
    | some n =>
      let rest : Links := { l with nodes := l.nodes.erase h }
      let (run, left) := match if h = stop then none else n.below with
        | some next => takeOut stop steps next rest
        | none => ([], rest)
      (⟨h, n.line⟩ :: run, left)

/-- Takes out the lines on the way down from one to another, and links what is above the one to
what is below the other. -/
def eraseSpan (l : Links) (start stop : Handle) : List Entry × Links :=
  match l.above? start with
  | none => ([], l)
  | some above =>
    let after := l.next? stop
    let (run, left) := takeOut stop l.nodes.size start l
    (run, (left.linkBelow above after).linkAbove after above)

end Links

end RobotScript
