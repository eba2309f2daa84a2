import Mathlib.Algebra.GroupWithZero.Nat
import RobotScript.Proofs.Searching
/-!
What a replacement of all matches is to make of the lines of a script: the line where it starts, in
the two parts that are divided at the column of the start, and the lines above and below it. A scan
says what is left to do from some column of a line on, and what the lines will be when it is done.
-/
namespace RobotScript.Editor

open Chars (FreeOf First takeBytes dropBytes width)

/-- A replacement of all matches that starts at a column of a line: the line in the two parts that
are divided there, with the lines above it and below it. -/
structure Job where
  options : SearchOptions
  pattern : String
  replacement : String
  above : List Entry
  head : List Char
  tail : List Char
  below : List Entry
  column : Nat
  written : pattern.toList ≠ []
  divides : Chars.Divides options.letter pattern.toList column head tail
  apart : Chars.Apart options.letter pattern.toList (head ++ tail)
  apartAll : ∀ x ∈ above ++ below, Chars.Apart options.letter pattern.toList x.chars

namespace Job

variable (j : Job)

def rewrite (cs : List Char) : List Char :=
  Chars.substitute j.options.letter j.pattern.toList j.replacement.toList cs

def count (cs : List Char) : Nat :=
  (Chars.columns j.options.letter j.pattern.toList cs).length

def rewriteAll (es : List Entry) : List (List Char) :=
  es.map fun x => j.rewrite x.chars

def countAll (es : List Entry) : Nat :=
  (es.map fun x => j.count x.chars).sum

def goal : List (List Char) :=
  j.rewriteAll j.above ++ (j.rewrite j.head ++ j.rewrite j.tail) :: j.rewriteAll j.below

def total : Nat :=
  j.countAll j.above + (j.count j.head + j.count j.tail) + j.countAll j.below

theorem rewrite_line : j.rewrite (j.head ++ j.tail) = j.rewrite j.head ++ j.rewrite j.tail :=
  j.divides.closed.substituteFrom_append (Nat.zero_le _)

theorem count_line : j.count (j.head ++ j.tail) = j.count j.head + j.count j.tail := by
  rw [count, Chars.columns, j.divides.closed.columnsFrom_append, List.length_append,
    Chars.length_columnsFrom, Chars.length_columnsFrom, count, count]

def Free (cs : List Char) : Prop :=
  FreeOf j.options.letter j.pattern.toList cs []

def FreeAll (es : List Entry) : Prop :=
  ∀ x ∈ es, j.Free x.chars

def Occurs (column : Nat) (cs : List Char) : Prop :=
  column ∈ Chars.columns j.options.letter j.pattern.toList cs

def Lone : Prop :=
  j.Occurs j.column (j.head ++ j.tail) ∧ j.total = 1

structure Clear : Prop where
  /-- What occurs up to the column when the tail has been rewritten is in the head. -/
  within : ∀ start, j.Occurs start (j.head ++ j.rewrite j.tail) → start ≤ j.column →
    j.Occurs start j.head
  /-- The start of the pass, moved along, is not moved to before an occurrence in the head. -/
  reaches : ¬j.Lone → ∀ start, j.Occurs start j.head →
    start + Text.size j.pattern ≤ j.column + Text.size j.replacement
  /-- The pass does not come back to what it has put in for the only occurrence. -/
  alone : j.Lone → j.Free (j.rewrite (j.head ++ j.tail))

variable {j} {cs as m bs : List Char} {es : List Entry} {column : Nat}

theorem Free.rewrite (free : j.Free cs) : j.rewrite cs = cs :=
  FreeOf.substitute_self free _

theorem Free.count (free : j.Free cs) : j.count cs = 0 :=
  congrArg List.length (FreeOf.columns_nil free)

theorem free_of_count (none : j.count cs = 0) : j.Free cs :=
  Chars.freeOf_of_columns_nil (List.eq_nil_of_length_eq_zero none)

theorem Occurs.append (occurs : j.Occurs column as) (bs : List Char) : j.Occurs column (as ++ bs) :=
  Chars.mem_columns_append_left occurs bs

theorem Lone.eq (lone : j.Lone) (occurs : j.Occurs column j.head) : column = j.column := by
  have some := List.length_pos_of_mem lone.1
  have total := lone.2
  have line := j.count_line
  have single : j.count (j.head ++ j.tail) = 1 := by
    unfold Job.total at total
    unfold count at *
    omega
  rcases List.length_eq_one_iff.mp single with ⟨only, whole⟩
  have here := lone.1
  have there := occurs.append j.tail
  unfold Occurs at here there
  rw [whole, List.mem_singleton] at here there
  rw [here, there]

theorem clear_of_lone (lone : j.Lone) (alone : j.Free (j.rewrite (j.head ++ j.tail))) :
    j.Clear := by
  have some := List.length_pos_of_mem (j.divides.mem_head lone.1 (Nat.le_refl _))
  have total := lone.2
  have free : j.Free j.tail := by
    apply free_of_count
    unfold Job.total count at total
    unfold count
    omega
  refine ⟨?_, fun several => absurd lone several, fun _ => alone⟩
  intro start occurs before
  rw [free.rewrite] at occurs
  exact j.divides.mem_head occurs before

theorem clear_of_several {x : Entry} (whole : j.head ++ j.tail = x.chars) (several : ¬j.Lone)
    (clear : j.options.ClearAt j.pattern j.replacement x.line.text j.column) : j.Clear := by
  have same : takeBytes (j.column + 1) x.chars ++ j.rewrite (dropBytes (j.column + 1) x.chars) =
      j.head ++ j.rewrite j.tail := by
    rcases j.divides.dropBytes_eq with ⟨xs, head, ahead, free⟩
    rw [whole] at head ahead
    rw [ahead, rewrite, free.substitute_eq, ← List.append_assoc, ← head, rewrite]
  have settled : ∀ start, j.Occurs start (j.head ++ j.rewrite j.tail) → start ≤ j.column →
      start + Text.size j.pattern ≤ j.column ∨ j.Occurs start (j.head ++ j.tail) ∧
        start + Text.size j.pattern ≤ j.column + Text.size j.replacement := by
    rw [← same, whole]
    exact clear
  refine ⟨?_, ?_, fun lone => absurd lone several⟩
  · intro start occurs before
    rcases settled start occurs before with ends | ⟨there, -⟩
    · exact j.divides.mem_head_of_le j.options.letter_size j.written occurs ends
    · exact j.divides.mem_head there before
  · intro _ start occurs
    rcases settled start (occurs.append _) (j.divides.starts start occurs) with ends | ⟨-, reaches⟩
    · exact Nat.le_trans ends (Nat.le_add_right _ _)
    · exact reaches

theorem FreeAll.rewrite (free : j.FreeAll es) : j.rewriteAll es = es.map Entry.chars :=
  List.map_congr_left fun x mem => (free x mem).rewrite

theorem FreeAll.count (free : j.FreeAll es) : j.countAll es = 0 := by
  induction es with
  | nil => rfl
  | cons x es ih =>
    have here := (free x List.mem_cons_self).count
    have behind := ih fun y mem => free y (List.mem_cons_of_mem x mem)
    unfold countAll at behind ⊢
    rw [List.map_cons, List.sum_cons, here, behind]

theorem length_of_rewriteAll {es es' : List Entry} (made : es.map Entry.chars = j.rewriteAll es') :
    es.length = es'.length := by
  simpa [rewriteAll] using congrArg List.length made

@[simp] theorem rewriteAll_append (es es' : List Entry) :
    j.rewriteAll (es ++ es') = j.rewriteAll es ++ j.rewriteAll es' := by
  simp [rewriteAll]

@[simp] theorem rewriteAll_cons (x : Entry) (es : List Entry) :
    j.rewriteAll (x :: es) = j.rewrite x.chars :: j.rewriteAll es := rfl

@[simp] theorem countAll_append (es es' : List Entry) :
    j.countAll (es ++ es') = j.countAll es + j.countAll es' := by
  simp [countAll]

@[simp] theorem countAll_cons (x : Entry) (es : List Entry) :
    j.countAll (x :: es) = j.count x.chars + j.countAll es := by
  simp [countAll]

theorem goal_eq {x : Entry} (whole : j.head ++ j.tail = x.chars) :
    j.goal = j.rewriteAll (j.above ++ x :: j.below) := by
  rw [rewriteAll_append, rewriteAll_cons, ← whole, rewrite_line, goal]

theorem total_eq {x : Entry} (whole : j.head ++ j.tail = x.chars) :
    j.total = j.countAll (j.above ++ x :: j.below) := by
  rw [countAll_append, countAll_cons, ← whole, count_line, total, Nat.add_assoc]

variable (j)

/-- Whether a pass stands in line `x`, behind some lines and before others: what it has left are
`rest`, which starts at column `resume`, and the lines in `todo`. When it has replaced what is left,
the lines are as in `goal`. -/
structure Scan (suffix : List Char) (resume : Nat) (done : List Entry) (x : Entry)
    (rest : List Char) (todo : List Entry) (goal : List (List Char)) (left : Nat) : Prop where
  ahead : dropBytes resume x.chars = rest ++ suffix
  goal : done.map Entry.chars ++
    (takeBytes resume x.chars ++ (j.rewrite rest ++ suffix)) :: j.rewriteAll todo = goal
  left : j.count rest + j.countAll todo = left
  apart : Chars.Apart j.options.letter j.pattern.toList rest
  apartAll : ∀ y ∈ todo, Chars.Apart j.options.letter j.pattern.toList y.chars

namespace Scan

variable {j} {suffix rest : List Char} {resume : Nat} {done todo more : List Entry} {x y : Entry}
  {goal : List (List Char)} {left : Nat}

theorem start (free : j.FreeAll more) (split : es = more ++ y :: todo)
    (apart : ∀ x ∈ es, Chars.Apart j.options.letter j.pattern.toList x.chars) :
    j.Scan [] 0 more y y.chars todo (j.rewriteAll es) (j.countAll es) where
  ahead := by simp
  goal := by simp [split, free.rewrite]
  left := by simp [split, free.count]
  apart := apart y (by simp [split])
  apartAll := by
    intro z mem
    exact apart z (by simp [split, mem])

theorem text_eq (scan : j.Scan suffix resume done x rest todo goal left) :
    takeBytes resume x.chars ++ (rest ++ suffix) = x.chars := by
  rw [← scan.ahead, Chars.takeBytes_append_dropBytes]

theorem dropBytes_eq (scan : j.Scan [] resume done x rest todo goal left) :
    dropBytes resume x.chars = rest := by
  rw [scan.ahead, List.append_nil]

theorem finish (scan : j.Scan suffix resume done x rest todo goal left) (free : j.Free rest)
    (freeAll : j.FreeAll todo) : (done ++ x :: todo).map Entry.chars = goal ∧ left = 0 := by
  have text := scan.text_eq
  have made := scan.goal
  have none := scan.left
  rw [free.rewrite, freeAll.rewrite, text] at made
  rw [free.count, freeAll.count] at none
  exact ⟨by simpa using made, none.symm⟩

theorem pass (scan : j.Scan [] resume done x rest (more ++ y :: todo) goal left)
    (free : j.Free rest) (freeAll : j.FreeAll more) :
    j.Scan [] 0 (done ++ x :: more) y y.chars todo goal left where
  ahead := by simp
  goal := by
    have text := scan.text_eq
    rw [← scan.goal, free.rewrite, text]
    simp [freeAll.rewrite]
  left := by
    rw [← scan.left]
    simp [free.count, freeAll.count]
  apart := scan.apartAll y (by simp)
  apartAll := by
    intro z mem
    exact scan.apartAll z (by simp [mem])

/-- It goes on behind an occurrence that has been replaced. -/
theorem replace (scan : j.Scan suffix resume done x rest todo goal left)
    (first : First j.options.letter j.pattern.toList rest as m bs)
    (replaced : y.chars =
      takeBytes resume x.chars ++ as ++ j.replacement.toList ++ (bs ++ suffix)) :
    ∃ left', left = left' + 1 ∧
      j.Scan suffix (width (takeBytes resume x.chars) + width as + Text.size j.replacement) done y
        bs todo goal left' := by
  have size : width (takeBytes resume x.chars ++ as ++ j.replacement.toList) =
      width (takeBytes resume x.chars) + width as + Text.size j.replacement := by
    simp [Text.size, Nat.add_assoc]
  have counted : j.count rest = j.count bs + 1 :=
    first.length_columns j.options.letter_size scan.apart j.written
  have apart := scan.apart
  rw [first.whole] at apart
  refine ⟨j.count bs + j.countAll todo, ?_, ?_, ?_, rfl, apart.right.right, scan.apartAll⟩
  · rw [← scan.left, counted]
    omega
  · rw [← size, replaced, Chars.dropBytes_width]
  · rw [← size, replaced, Chars.takeBytes_width, ← scan.goal, Job.rewrite, Job.rewrite,
      first.substitute_eq j.written]
    simp

end Scan

end Job

end RobotScript.Editor
