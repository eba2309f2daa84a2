import RobotScript.Proofs.Outcomes
import RobotScript.Script.Block
import RobotScript.Script.Motion
/-!
Moves, deletions and cuts are made of a few changes: the cursor and the mark are set, a blank line
is put in, a line or a span of lines is taken out. What each of those keeps, all of them keep.
-/
namespace RobotScript.Script

/-- Whether a property of scripts is kept by all changes that moves, deletions and cuts are made
of. -/
structure Closed (P : Script → Prop) : Prop where
  /-- The cursor and the mark do not matter. -/
  look {s s' : Script} : P s → s'.links = s.links → s'.lineCount = s.lineCount →
    s'.pool = s.pool → s'.totalSize = s.totalSize → s'.capacity = s.capacity → P s'
  insertBlank {s : Script} : P s → s.checkCapacity 0 Line.blank.size = .ok () →
    ∀ anchor number? relation, P (s.insertLine anchor number? relation .blank).2
  unlink {s : Script} : P s → ∀ h number, P (s.unlink h number)
  unlinkSpan {s : Script} : P s → ∀ start stop, P (s.unlinkSpan start stop).2

namespace Closed

variable {P : Script → Prop} (closed : Closed P) {s s' : Script}

include closed

theorem setCursor (inv : P s) (h : Handle) (number : Nat) : P (s.setCursor h number) :=
  closed.look inv rfl rfl rfl rfl rfl

theorem setColumn (inv : P s) (column : Nat) : P (s.setColumn column) :=
  closed.look inv rfl rfl rfl rfl rfl

theorem placeMark (inv : P s) (endpoint : Endpoint) : P (s.placeMark endpoint) :=
  closed.look inv rfl rfl rfl rfl rfl

theorem unmark (inv : P s) : P s.unmark := closed.look inv rfl rfl rfl rfl rfl

theorem delete {h : Handle} {focus : Focus} {deleted : Bool} (inv : P s)
    (done : s.delete h focus = .ok (deleted, s')) : P s' := by
  unfold Script.delete at done
  split at done
  · cases done
    exact inv
  split at done
  · obtain ⟨refuge?, -, done⟩ := bind_eq_ok.mp done
    split at done
    · cases done
      exact closed.unlink (closed.setCursor inv _ _) _ _
    · cases done
      exact inv
  · obtain ⟨number?, -, done⟩ := bind_eq_ok.mp done
    split at done
    · cases done
      exact closed.unlink inv _ _
    · cases done
      exact inv

theorem insertBlankAt (inv : P s) (anchor : Handle) (number? : Option Nat) (relation : Relation) :
    P (s.insertBlankAt anchor number? relation).2 := by
  unfold Script.insertBlankAt
  split
  next => exact inv
  next room => exact closed.insertBlank inv room _ _ _

theorem insertBlankLine {anchor : Handle} {relation : Relation} {result : Except EditError Handle}
    (inv : P s) (done : s.insertBlank anchor relation = .ok (result, s')) : P s' := by
  have put := closed.insertBlankAt inv anchor (s.lineNumber? anchor) relation
  unfold Script.insertBlank at done
  split at done
  · cases done
  · rw [Except.ok.inj done] at put
    exact put

theorem moveUp {steps : Nat} (inv : P s) (moved : s.moveUp steps = .ok s') : P s' := by
  induction steps generalizing s with
  | zero =>
    cases moved
    exact inv
  | succ steps ih =>
    unfold Script.moveUp at moved
    split at moved
    · obtain ⟨line, -, moved⟩ := bind_eq_ok.mp moved
      exact ih (closed.setCursor inv _ _) moved
    · cases moved
      exact inv

theorem growBelow (inv : P s) : P s.growBelow := by
  have put := closed.insertBlankAt inv s.cursor.handle (s.lineNumber? s.cursor.handle) .after
  unfold Script.growBelow
  dsimp only
  split
  · exact inv
  · split
    next inserted =>
      rw [inserted] at put
      exact closed.setCursor put _ _
    next inserted =>
      rw [inserted] at put
      exact put

theorem moveDown (inv : P s) (steps : Nat) : P (s.moveDown steps) := by
  induction steps generalizing s with
  | zero => exact inv
  | succ steps ih =>
    unfold Script.moveDown
    split
    · exact ih (closed.setCursor inv _ _)
    · exact closed.growBelow inv

theorem moveCursor {count : Int} (inv : P s) (moved : s.moveCursor count = .ok s') : P s' := by
  unfold Script.moveCursor at moved
  split at moved
  · exact closed.moveUp inv moved
  · cases moved
    exact closed.moveDown inv _

theorem seed (inv : P s) : P s.seed := by
  have put := closed.insertBlankAt (closed.setCursor inv .top 0) .top (some 0) .after
  unfold Script.seed
  split
  next inserted =>
    rw [inserted] at put
    exact closed.setCursor put _ _
  next inserted =>
    rw [inserted] at put
    exact put

theorem relocate {m : Mark} {before : Handle} {after : Option Handle} {removed : Nat} (inv : P s)
    (moved : s.relocate m before after removed = .ok s') : P s' := by
  unfold Script.relocate at moved
  split at moved
  · split at moved
    · cases moved
      exact closed.setCursor inv _ _
    · obtain ⟨line, -, moved⟩ := bind_eq_ok.mp moved
      cases moved
      exact closed.setCursor inv _ _
  · split at moved
    · obtain ⟨line, -, moved⟩ := bind_eq_ok.mp moved
      cases moved
      exact closed.setCursor inv _ _
    · cases moved
      exact inv

theorem clearBlock {removed : Nat} (inv : P s) (cleared : s.clearBlock = .ok (removed, s')) :
    P s' := by
  have left := closed.unlinkSpan (closed.unmark inv) s.block.start s.block.stop
  unfold Script.clearBlock at cleared
  dsimp only at cleared
  split at cleared
  · cases cleared
    exact closed.seed left
  · obtain ⟨moved, relocated, cleared⟩ := bind_eq_ok.mp cleared
    cases cleared
    exact closed.relocate left relocated

end Closed

theorem capacity_unlink (s : Script) (h : Handle) (number : Nat) :
    (s.unlink h number).capacity = s.capacity := by
  unfold unlink
  split <;> rfl

theorem capacity_setLine (s : Script) (h : Handle) (line : Line) :
    (s.setLine h line).capacity = s.capacity := by
  unfold setLine
  split <;> rfl

/-- A line that is put in has the handle that the pool gives out next and counts with its size, and
one that finds no place leaves the lines as they are. -/
theorem insertLine_cases (s : Script) (anchor : Handle) (number? : Option Nat)
    (relation : Relation) (line : Line) :
    (∃ number s', s.insertLine anchor number? relation line =
          (.ok (s.pool.allocate.1, number), s') ∧
        s.links.insert? anchor relation ⟨s.pool.allocate.1, line⟩ = some s'.links ∧
        s'.lineCount = s.lineCount + 1 ∧ s'.pool = s.pool.allocate.2 ∧
        s'.totalSize = s.totalSize + line.size ∧ s'.capacity = s.capacity) ∨
      ∃ err s', s.insertLine anchor number? relation line = (.error err, s') ∧
        s'.links = s.links ∧ s'.lineCount = s.lineCount ∧
        s'.pool = s.pool.allocate.2.release s.pool.allocate.1 ∧
        s'.totalSize = s.totalSize ∧ s'.capacity = s.capacity := by
  unfold insertLine
  dsimp only
  split
  next number s' placed =>
    rcases Option.bind_eq_some_iff.mp placed with ⟨n, -, linked⟩
    rcases Option.map_eq_some_iff.mp linked with ⟨links, put, same⟩
    cases same
    exact .inl ⟨_, _, rfl, put, rfl, rfl, rfl, rfl⟩
  next => exact .inr ⟨_, _, rfl, rfl, rfl, rfl, rfl, rfl⟩

theorem capacity_insertLine (s : Script) (anchor : Handle) (number? : Option Nat)
    (relation : Relation) (line : Line) :
    (s.insertLine anchor number? relation line).2.capacity = s.capacity := by
  rcases s.insertLine_cases anchor number? relation line with
    ⟨_, _, inserted, -, -, -, -, capacity⟩ | ⟨_, _, refused, -, -, -, -, capacity⟩
  · rw [inserted]
    exact capacity
  · rw [refused]
    exact capacity

theorem closed_capacity (n : Nat) : Closed (·.capacity = n) where
  look := fun same _ _ _ _ capacity => capacity.trans same
  insertBlank := fun same _ _ _ _ => (capacity_insertLine _ _ _ _ _).trans same
  unlink := fun same _ _ => (capacity_unlink _ _ _).trans same
  unlinkSpan := fun same _ _ => same

end RobotScript.Script
