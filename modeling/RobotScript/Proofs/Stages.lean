import RobotScript.Proofs.Rewriting
/-!
The stages of a pass that replaces all matches: down from the start to the end of the script, over
the top, and home again up to the column of the start. In each of them the lines are on the way to a
goal, in which every occurrence of the pattern has been replaced once, and a match either brings the
pass nearer to it or shows that it is reached.
-/
namespace RobotScript.Editor

open Chars (FreeOf First takeBytes dropBytes width)

namespace Pass

variable {p : Pass} {delta : Int} {m : Match}

theorem beforeStart_eq_false_iff :
    p.beforeStart m = false ↔
      p.startLine ≤ m.number ∧ (m.number = p.startLine → p.startColumn < m.column) := by
  simp [beforeStart]
  omega

theorem regresses_iff :
    p.regresses m = true ↔
      m.number < p.lastLine ∨ m.number = p.lastLine ∧ (m.column : Int) < p.lastColumn := by
  simp [regresses]
  omega

theorem regresses_eq_false_iff :
    p.regresses m = false ↔
      p.lastLine ≤ m.number ∧ (m.number = p.lastLine → p.lastColumn ≤ m.column) := by
  rw [← Bool.not_eq_true, regresses_iff]
  omega

theorem admit?_eq {q : Pass}
    (shift : (if m.number = p.startLine ∧ (m.column : Int) ≤ p.startColumn then
      { p with startColumn := p.startColumn + delta } else p) = q)
    (near : m.column ≤ Line.maxText) :
    p.admit? delta m =
      if q.regresses m && q.wrapped || (q.regresses m || q.wrapped) && !q.beforeStart m then none
      else some { q with wrapped := q.wrapped || q.regresses m } := by
  have same : beforeStart { q with wrapped := q.wrapped || q.regresses m } m = q.beforeStart m := rfl
  unfold admit?
  dsimp only
  rw [shift, same]
  cases q.regresses m <;> cases q.beforeStart m <;> cases q.wrapped <;> simp [near]

theorem admit?_eq_some {q : Pass} (admitted : p.admit? delta m = some q) :
    m.column ≤ Line.maxText ∧ q.replaced = p.replaced ∧
      q.wrapped = (p.wrapped || p.regresses m) ∧ (p.regresses m && p.wrapped) = false := by
  have near : m.column ≤ Line.maxText := by
    unfold admit? at admitted
    dsimp only at admitted
    rw [Option.ite_none_left_eq_some, Option.ite_none_left_eq_some, Bool.or_eq_true,
      decide_eq_true_eq, not_or, Nat.not_lt] at admitted
    exact admitted.2.1.2
  have moved : ∃ r, (if m.number = p.startLine ∧ (m.column : Int) ≤ p.startColumn then
      { p with startColumn := p.startColumn + delta } else p) = r ∧ r.replaced = p.replaced ∧
        r.wrapped = p.wrapped ∧ r.regresses m = p.regresses m := by
    split <;> exact ⟨_, rfl, rfl, rfl, rfl⟩
  rcases moved with ⟨r, shift, replaced, wrapped, back⟩
  rw [admit?_eq shift near, Option.ite_none_left_eq_some, wrapped, back] at admitted
  rcases admitted with ⟨once, same⟩
  cases same
  exact ⟨near, replaced, rfl, by simp_all⟩

/-- The start of a pass is moved along by a match in its line that is not behind it. A pass that has
come round takes no match into account that is behind the start. -/
theorem start_of_admit? {q : Pass} (admitted : p.admit? delta m = some q) :
    q.startLine = p.startLine ∧
    q.startColumn = (if m.number = p.startLine ∧ (m.column : Int) ≤ p.startColumn then
      p.startColumn + delta else p.startColumn) ∧
    (q.wrapped = true → q.beforeStart m = true) := by
  have near := (admit?_eq_some admitted).1
  have moved : ∃ r, (if m.number = p.startLine ∧ (m.column : Int) ≤ p.startColumn then
      { p with startColumn := p.startColumn + delta } else p) = r ∧ r.startLine = p.startLine ∧
        r.startColumn = (if m.number = p.startLine ∧ (m.column : Int) ≤ p.startColumn then
          p.startColumn + delta else p.startColumn) := by
    split <;> exact ⟨_, rfl, rfl, rfl⟩
  rcases moved with ⟨r, shift, line, column⟩
  rw [admit?_eq shift near, Option.ite_none_left_eq_some] at admitted
  rcases admitted with ⟨once, same⟩
  cases same
  refine ⟨line, column, fun wraps => ?_⟩
  change r.beforeStart m = true
  dsimp only at wraps
  rw [Bool.or_comm] at wraps
  rw [wraps, Bool.true_and, Bool.or_eq_true, not_or, Bool.not_eq_true', Bool.not_eq_false] at once
  exact once.2

theorem admit?_of_behind (behind : p.beforeStart m = false) (near : m.column ≤ Line.maxText) :
    p.admit? delta m = if p.regresses m || p.wrapped then none else some p := by
  have outside : ¬(m.number = p.startLine ∧ (m.column : Int) ≤ p.startColumn) := by
    rw [beforeStart_eq_false_iff] at behind
    omega
  rw [admit?_eq (if_neg outside) near, behind]
  cases back : p.regresses m <;> cases wrapped : p.wrapped <;> simp [← wrapped]

theorem admit?_of_above (above : m.number < p.startLine) (near : m.column ≤ Line.maxText) :
    p.admit? delta m =
      if p.regresses m && p.wrapped then none
      else some { p with wrapped := p.wrapped || p.regresses m } := by
  have outside : ¬(m.number = p.startLine ∧ (m.column : Int) ≤ p.startColumn) := by omega
  have before : p.beforeStart m = true := by simp [beforeStart, above]
  rw [admit?_eq (if_neg outside) near, before]
  simp

theorem admit?_of_before (number : m.number = p.startLine)
    (before : (m.column : Int) ≤ p.startColumn) (still : (m.column : Int) ≤ p.startColumn + delta)
    (near : m.column ≤ Line.maxText) :
    p.admit? delta m =
      if p.regresses m && p.wrapped then none
      else some { p with
        startColumn := p.startColumn + delta
        wrapped := p.wrapped || p.regresses m } := by
  have moved : beforeStart { p with startColumn := p.startColumn + delta } m = true := by
    simp [beforeStart, number, still]
  rw [admit?_eq (if_pos ⟨number, before⟩) near, moved]
  simp only [Bool.not_true, Bool.and_false, Bool.or_false]
  rfl

theorem admit?_of_regresses (back : p.regresses m = true) (wrapped : p.wrapped = true)
    (near : m.column ≤ Line.maxText) : p.admit? delta m = none := by
  by_cases inside : m.number = p.startLine ∧ (m.column : Int) ≤ p.startColumn
  · have back : regresses { p with startColumn := p.startColumn + delta } m = true := back
    rw [admit?_eq (if_pos inside) near, back]
    simp [wrapped]
  · rw [admit?_eq (if_neg inside) near]
    simp [back, wrapped]

end Pass

namespace Job

variable (j : Job)

structure Down (p : Pass) (done : List Entry) (x : Entry) (rest : List Char) (todo : List Entry)
    (left : Nat) : Prop where
  scan : j.Scan [] p.resume done x rest todo
    ((j.head ++ j.rewrite j.tail) :: j.rewriteAll j.below) left
  startLine : p.startLine = j.above.length + 1
  startColumn : p.startColumn = j.column
  wrapped : p.wrapped = false
  lastLine : p.lastLine = (j.above ++ done).length + 1
  lastColumn : p.lastColumn = p.resume ∧ 0 < p.replaced ∨
    done = [] ∧ p.lastColumn = j.column ∧ p.resume = j.column + 1 ∧ p.replaced = 0
  behind : done = [] → j.column < p.resume
  counted : p.replaced + left + j.countAll j.above + j.count j.head = j.total

structure Round (p : Pass) (done : List Entry) (x : Entry) (rest : List Char) (todo : List Entry)
    (z : Entry) (below : List Entry) (left : Nat) : Prop where
  scan : j.Scan [] p.resume done x rest todo (j.rewriteAll j.above) left
  length : (done ++ x :: todo).length = j.above.length
  start : z.chars = j.head ++ j.rewrite j.tail
  below : below.map Entry.chars = j.rewriteAll j.below
  startLine : p.startLine = j.above.length + 1
  startColumn : p.startColumn = j.column
  wrapped : p.wrapped = true
  lastLine : p.lastLine = done.length + 1
  lastColumn : p.lastColumn = p.resume
  replaced : 0 < p.replaced
  counted : p.replaced + left + j.count j.head = j.total

structure Home (p : Pass) (above : List Entry) (x : Entry) (before rest : List Char)
    (below : List Entry) (left : Nat) : Prop where
  scan : j.Scan (j.rewrite j.tail) p.resume [] x rest [] [j.rewrite j.head ++ j.rewrite j.tail] left
  above : above.map Entry.chars = j.rewriteAll j.above
  below : below.map Entry.chars = j.rewriteAll j.below
  startLine : p.startLine = j.above.length + 1
  wrapped : p.wrapped = true
  lastLine : p.lastLine = j.above.length + 1
  lastColumn : p.lastColumn = p.resume
  resume : p.resume = width (takeBytes p.resume x.chars)
  head : j.head = before ++ rest
  startColumn : p.startColumn + width before = j.column + p.resume
  replaced : 0 < p.replaced
  counted : p.replaced + left = j.total

def Finished (p : Pass) (es : List Entry) : Prop :=
  es.map Entry.chars = j.goal ∧ p.replaced = j.total

inductive Stage (p : Pass) : List Entry → Entry → List Entry → Prop
  | down {done todo : List Entry} {x : Entry} {rest : List Char} {left : Nat} :
    j.Down p done x rest todo left → Stage p (j.above ++ done) x todo
  | round {done todo below : List Entry} {x z : Entry} {rest : List Char} {left : Nat} :
    j.Round p done x rest todo z below left → Stage p done x (todo ++ z :: below)
  | home {above below : List Entry} {x : Entry} {before rest : List Char} {left : Nat} :
    j.Home p above x before rest below left → Stage p above x below
  /-- All has been done, and nothing occurs any more. -/
  | still {as bs : List Entry} {x : Entry} :
    j.Finished p (as ++ x :: bs) → j.FreeAll (as ++ x :: bs) → Stage p as x bs

def GoesOn (p : Pass) (m : Match) (es : List Entry) : Prop :=
  ∃ as y bs xs occurrence ys, es = as ++ y :: bs ∧ m = ⟨y.handle, as.length + 1, width xs⟩ ∧
    y.chars = xs ++ (occurrence ++ ys) ∧
    occurrence.map j.options.letter = j.pattern.toList.map j.options.letter ∧
    ∀ z : Entry, z.chars = xs ++ (j.replacement.toList ++ ys) →
      j.Stage (p.advance m (m.column + Text.size j.replacement)) as z bs

def delta : Int :=
  Text.size j.replacement - Text.size j.pattern

/-- Whether a pass does right by a match: it goes on with it, or it is finished. -/
def Proceeds (p : Pass) (m : Match) (es : List Entry) : Prop :=
  p.admit? j.delta m = none ∧ j.Finished p es ∨
    ∃ p', p.admit? j.delta m = some p' ∧ j.GoesOn p' m es

section Step

variable {j} {p : Pass} {above below done todo es more as bs : List Entry} {x y z : Entry}
  {rest before suffix xs occurrence ys : List Char} {left start : Nat}
  {goal : List (List Char)}

theorem Scan.goesOn {m : Match} (scan : j.Scan suffix start done x rest todo goal left)
    (first : First j.options.letter j.pattern.toList rest xs occurrence ys)
    (found : m = ⟨x.handle, as.length + 1, width (takeBytes start x.chars) + width xs⟩)
    (next : ∀ z left', left = left' + 1 →
      j.Scan suffix (m.column + Text.size j.replacement) done z ys todo goal left' →
      m.column + Text.size j.replacement =
        width (takeBytes (m.column + Text.size j.replacement) z.chars) →
      j.Stage (p.advance m (m.column + Text.size j.replacement)) as z bs) :
    j.GoesOn p m (as ++ x :: bs) := by
  subst found
  refine ⟨as, x, bs, takeBytes start x.chars ++ xs, occurrence, ys ++ suffix, rfl, ?_, ?_,
    first.same, ?_⟩
  · rw [Chars.width_append]
  · have text := scan.text_eq
    rw [first.whole] at text
    simpa using text.symm
  · intro z replaced
    have made : z.chars =
        takeBytes start x.chars ++ xs ++ j.replacement.toList ++ (ys ++ suffix) := by
      simpa using replaced
    rcases scan.replace first made with ⟨left', less, scan'⟩
    apply next z left' less scan'
    have size : width (takeBytes start x.chars ++ xs ++ j.replacement.toList) =
        width (takeBytes start x.chars) + width xs + Text.size j.replacement := by
      simp [Text.size, Nat.add_assoc]
    rw [made, ← size, Chars.takeBytes_width]

/-! ### Down to the end -/

theorem Scan.goesDown {m : Match}
    (scan : j.Scan [] start done x rest todo
      ((j.head ++ j.rewrite j.tail) :: j.rewriteAll j.below) left)
    (first : First j.options.letter j.pattern.toList rest xs occurrence ys)
    (found : m = ⟨x.handle, (j.above ++ done).length + 1,
      width (takeBytes start x.chars) + width xs⟩)
    (startLine : p.startLine = j.above.length + 1) (startColumn : p.startColumn = j.column)
    (wrapped : p.wrapped = false) (behind : done = [] → j.column < m.column)
    (counted : p.replaced + left + j.countAll j.above + j.count j.head = j.total) :
    j.GoesOn p m (j.above ++ done ++ x :: todo) := by
  apply scan.goesOn first found
  intro z left' less scan' _
  refine .down ⟨scan', startLine, startColumn, wrapped, ?_, .inl ⟨rfl, Nat.succ_pos _⟩, ?_, ?_⟩
  · rw [found]
    rfl
  · intro none
    exact Nat.lt_add_right _ (behind none)
  · rw [← counted, less]
    simp only [Pass.advance]
    omega

theorem Down.admits {m : Match} (down : j.Down p done x rest todo left)
    (forth : p.lastLine ≤ m.number) (ahead : m.number = p.lastLine → p.resume ≤ m.column)
    (near : m.column ≤ Line.maxText) : p.admit? j.delta m = some p := by
  have lastLine := down.lastLine
  have lastColumn := down.lastColumn
  rw [List.length_append] at lastLine
  have behind : p.beforeStart m = false := by
    rw [Pass.beforeStart_eq_false_iff, down.startLine, down.startColumn]
    refine ⟨by omega, ?_⟩
    intro number
    have := down.behind (List.eq_nil_of_length_eq_zero (by omega))
    omega
  have regresses : p.regresses m = false := by
    rw [Pass.regresses_eq_false_iff]
    refine ⟨forth, ?_⟩
    intro number
    have := ahead number
    omega
  rw [Pass.admit?_of_behind behind near, regresses, down.wrapped]
  rfl

theorem Down.here (down : j.Down p done x rest todo left)
    (first : First j.options.letter j.pattern.toList (dropBytes p.resume x.chars) xs occurrence ys)
    {m : Match} (found : m = ⟨x.handle, (j.above ++ done).length + 1,
      width (takeBytes p.resume x.chars) + width xs⟩) (near : m.column ≤ Line.maxText) :
    j.Proceeds p m (j.above ++ done ++ x :: todo) := by
  have number : m.number = (j.above ++ done).length + 1 := congrArg Match.number found
  have column : m.column = width (takeBytes p.resume x.chars) + width xs :=
    congrArg Match.column found
  have reached : p.resume ≤ m.column := column ▸ first.le_column j.written
  have forth := Nat.le_of_eq (down.lastLine.trans number.symm)
  refine .inr ⟨p, down.admits forth (fun _ => reached) near, ?_⟩
  apply down.scan.goesDown (down.scan.dropBytes_eq ▸ first) found down.startLine
    down.startColumn down.wrapped _ down.counted
  intro none
  exact Nat.lt_of_lt_of_le (down.behind none) reached

theorem Down.later (down : j.Down p done x rest (more ++ y :: todo) left)
    (free : j.Free rest) (freeAll : j.FreeAll more)
    (first : First j.options.letter j.pattern.toList y.chars xs occurrence ys)
    {m : Match} (found : m = ⟨y.handle, (j.above ++ done).length + 1 + (more.length + 1),
      width xs⟩) (near : m.column ≤ Line.maxText) :
    j.Proceeds p m (j.above ++ done ++ x :: (more ++ y :: todo)) := by
  have scan := down.scan.pass free freeAll
  have lastLine := down.lastLine
  have number : m.number = (j.above ++ done).length + 1 + (more.length + 1) :=
    congrArg Match.number found
  refine .inr ⟨p, down.admits (by omega) (by omega) near, ?_⟩
  have whole : j.above ++ done ++ x :: (more ++ y :: todo) =
      j.above ++ (done ++ x :: more) ++ y :: todo := by simp
  rw [whole]
  apply scan.goesDown first _ down.startLine down.startColumn down.wrapped (by simp) down.counted
  rw [found]
  simp
  omega

/-! ### Home again -/

theorem Clear.first (clear : j.Clear) (head : j.head = before ++ rest)
    (first : First j.options.letter j.pattern.toList (rest ++ j.rewrite j.tail) xs occurrence ys)
    (starts : width before + width xs ≤ j.column) :
    j.Occurs (width before + width xs) j.head ∧
      ∃ m zs, First j.options.letter j.pattern.toList rest xs m zs := by
  have whole : j.head ++ j.rewrite j.tail = (before ++ xs) ++ (occurrence ++ ys) := by
    rw [head, List.append_assoc, first.whole, List.append_assoc]
  have occurs : j.Occurs (width (before ++ xs)) (j.head ++ j.rewrite j.tail) := by
    rw [whole]
    exact Chars.mem_columns_match j.written first.same _ _
  rw [← Chars.width_append] at starts ⊢
  have inside := clear.within _ occurs starts
  refine ⟨inside, ?_⟩
  rcases Chars.exists_of_mem_columnsFrom inside with ⟨as, m, zs, split, same, size⟩
  rw [Nat.zero_add] at size
  rw [split, List.append_assoc] at whole
  rcases Chars.append_inj_of_width whole size.symm with ⟨rfl, behind⟩
  rw [head, List.append_assoc] at split
  have free := first.free
  rw [← behind] at free
  exact ⟨m, zs, List.append_cancel_left split, same, free.shorten⟩

theorem free_of_behind (head : j.head = before ++ rest)
    (first : First j.options.letter j.pattern.toList (rest ++ j.rewrite j.tail) xs occurrence ys)
    (behind : j.column < width before + width xs) : j.Free rest := by
  apply Chars.freeOf_of_columns_nil
  rw [List.eq_nil_iff_forall_not_mem]
  intro start found
  have later := first.le_of_mem (Chars.mem_columns_append_left found _)
  have inside := Chars.mem_columns_append_right before found
  rw [← head] at inside
  have := j.divides.starts _ inside
  omega

theorem free_head (starts : z.chars = j.head ++ j.rewrite j.tail) (free : j.Free z.chars) :
    j.Free j.head := by
  unfold Free at free
  rw [starts] at free
  exact free.left

theorem Scan.proceedsHome {m : Match} (clear : j.Clear)
    (scan : j.Scan (j.rewrite j.tail) start [] x rest []
      [j.rewrite j.head ++ j.rewrite j.tail] left)
    (first : First j.options.letter j.pattern.toList (rest ++ j.rewrite j.tail) xs occurrence ys)
    (found : m = ⟨x.handle, above.length + 1, width (takeBytes start x.chars) + width xs⟩)
    (near : m.column ≤ Line.maxText)
    (madeAbove : above.map Entry.chars = j.rewriteAll j.above)
    (madeBelow : below.map Entry.chars = j.rewriteAll j.below)
    (startLine : p.startLine = j.above.length + 1)
    (startColumn : p.startColumn + width before = j.column + width (takeBytes start x.chars))
    (turns : p.regresses m = !p.wrapped) (head : j.head = before ++ rest)
    (moved : p.replaced = 0 → width before + width xs ≠ j.column)
    (finished : j.Free rest → j.Finished p (above ++ x :: below))
    (counted : p.replaced + left = j.total) : j.Proceeds p m (above ++ x :: below) := by
  have length := length_of_rewriteAll madeAbove
  have number : m.number = p.startLine := by rw [found, startLine, length]
  have column : m.column = width (takeBytes start x.chars) + width xs :=
    congrArg Match.column found
  by_cases starts : width before + width xs ≤ j.column
  · rcases clear.first head first starts with ⟨occurs, occurrence, zs, inside⟩
    -- The only occurrence is at the column, and then it is the first that is replaced.
    have several : ¬j.Lone := by
      intro lone
      have some : left ≠ 0 := by
        rw [← scan.left, count, inside.length_columns j.options.letter_size scan.apart j.written]
        omega
      have single := lone.2
      exact moved (by omega) (lone.eq occurs)
    have ends := clear.reaches several _ occurs
    have shift : j.delta = Text.size j.replacement - Text.size j.pattern := rfl
    refine .inr ⟨{ p with startColumn := p.startColumn + j.delta, wrapped := true }, ?_, ?_⟩
    · rw [Pass.admit?_of_before number (by omega) (by omega) near, turns]
      cases p.wrapped <;> rfl
    · apply scan.goesOn inside found
      intro z left' less scan' resume
      have wide : width occurrence = Text.size j.pattern :=
        Chars.width_match j.options.letter_size inside.same
      have head' : j.head = before ++ (xs ++ occurrence) ++ zs := by
        rw [head, inside.whole]
        simp
      refine .home ⟨scan', madeAbove, madeBelow, startLine, rfl, ?_, rfl, resume, head', ?_,
        Nat.succ_pos _, ?_⟩
      · exact number.trans startLine
      · simp only [Pass.advance, Chars.width_append]
        omega
      · rw [← counted, less]
        simp only [Pass.advance]
        omega
  · refine .inl ⟨?_, finished (free_of_behind head first (by omega))⟩
    have behind : p.beforeStart m = false := by
      rw [Pass.beforeStart_eq_false_iff]
      omega
    rw [Pass.admit?_of_behind behind near, turns]
    cases p.wrapped <;> rfl

theorem Scan.home (starts : z.chars = j.head ++ j.rewrite j.tail) :
    j.Scan (j.rewrite j.tail) 0 [] z j.head [] [j.rewrite j.head ++ j.rewrite j.tail]
      (j.count j.head) :=
  ⟨by simp [starts], by simp [rewriteAll], by simp [countAll], j.apart.left, by simp⟩

theorem proceeds_home {m : Match} (clear : j.Clear) (starts : z.chars = j.head ++ j.rewrite j.tail)
    (first : First j.options.letter j.pattern.toList z.chars xs occurrence ys)
    (found : m = ⟨z.handle, above.length + 1, width xs⟩) (near : m.column ≤ Line.maxText)
    (madeAbove : above.map Entry.chars = j.rewriteAll j.above)
    (madeBelow : below.map Entry.chars = j.rewriteAll j.below)
    (startLine : p.startLine = j.above.length + 1) (startColumn : p.startColumn = j.column)
    (turns : p.regresses m = !p.wrapped) (moved : p.replaced = 0 → width xs ≠ j.column)
    (finished : j.Free j.head → j.Finished p (above ++ z :: below))
    (counted : p.replaced + j.count j.head = j.total) :
    j.Proceeds p m (above ++ z :: below) := by
  rw [starts] at first
  apply (Scan.home starts).proceedsHome clear first _ near madeAbove madeBelow startLine _ turns
    (List.nil_append j.head).symm _ finished counted
  · simpa using found
  · simp [startColumn]
  · simpa using moved

/-! ### Over the top -/

theorem Scan.goesRound {m : Match}
    (scan : j.Scan [] start done x rest todo (j.rewriteAll j.above) left)
    (first : First j.options.letter j.pattern.toList rest xs occurrence ys)
    (found : m = ⟨x.handle, done.length + 1, width (takeBytes start x.chars) + width xs⟩)
    (length : (done ++ x :: todo).length = j.above.length)
    (starts : z.chars = j.head ++ j.rewrite j.tail)
    (madeBelow : below.map Entry.chars = j.rewriteAll j.below)
    (startLine : p.startLine = j.above.length + 1) (startColumn : p.startColumn = j.column)
    (wrapped : p.wrapped = true) (counted : p.replaced + left + j.count j.head = j.total) :
    j.GoesOn p m (done ++ x :: (todo ++ z :: below)) := by
  apply scan.goesOn first found
  intro z' left' less scan' _
  refine .round ⟨scan', ?_, starts, madeBelow, startLine, startColumn, wrapped, ?_, rfl,
    Nat.succ_pos _, ?_⟩
  · simpa using length
  · rw [found]
    rfl
  · rw [← counted, less]
    simp only [Pass.advance]
    omega

theorem Down.finish (down : j.Down p done x rest todo left) (free : j.Free rest)
    (freeAll : j.FreeAll todo) (above : j.FreeAll j.above) (head : j.Free j.head) :
    j.Finished p (j.above ++ done ++ x :: todo) := by
  rcases down.scan.finish free freeAll with ⟨made, rfl⟩
  have counted := down.counted
  rw [above.count, head.count] at counted
  refine ⟨?_, counted⟩
  rw [List.append_assoc, List.map_append, made, goal, above.rewrite, head.rewrite]

theorem Down.bottom (down : j.Down p done x rest todo left) (free : j.Free rest)
    (freeAll : j.FreeAll todo) :
    ∃ z below, done ++ x :: todo = z :: below ∧ z.chars = j.head ++ j.rewrite j.tail ∧
      below.map Entry.chars = j.rewriteAll j.below ∧ left = 0 ∧
      (j.above ++ done ++ x :: todo).take p.startLine = j.above ++ [z] := by
  rcases down.scan.finish free freeAll with ⟨made, none⟩
  rcases List.map_eq_cons_iff.mp made with ⟨z, below, rows, starts, madeBelow⟩
  refine ⟨z, below, rows, starts, madeBelow, none, ?_⟩
  rw [List.append_assoc, rows, down.startLine, List.take_append,
    List.take_of_length_le (Nat.le_succ _), Nat.add_sub_cancel_left, List.take_succ_cons,
    List.take_zero]

theorem Down.lone (clear : j.Clear) (down : j.Down p done x rest todo 0) (fresh : p.replaced = 0)
    (above : j.FreeAll j.above)
    (first : First j.options.letter j.pattern.toList (j.head ++ j.rewrite j.tail) xs occurrence ys)
    (here : width xs = j.column) :
    j.Lone ∧ ∃ m zs, First j.options.letter j.pattern.toList j.head xs m zs ∧ j.Free zs := by
  rcases clear.first (List.nil_append j.head).symm first (by simp [here]) with
    ⟨occurs, m, zs, inside⟩
  have free : j.Free zs := by
    apply Chars.freeOf_of_columns_nil
    rw [List.eq_nil_iff_forall_not_mem]
    intro start found
    have behind := Chars.mem_columns_append_right (xs ++ m) found
    rw [List.append_assoc, ← inside.whole] at behind
    have before := j.divides.starts _ behind
    have wide := Chars.width_match j.options.letter_size inside.same
    have positive := Chars.width_pos j.written
    rw [Chars.width_append] at before
    omega
  have counted := down.counted
  have one : j.count j.head = j.count zs + 1 :=
    inside.length_columns j.options.letter_size j.apart.left j.written
  rw [above.count, one, free.count] at counted
  simp only [Chars.width_nil, Nat.zero_add, here] at occurs
  exact ⟨⟨occurs.append j.tail, by omega⟩, m, zs, inside, free⟩

theorem Down.still {m : Match} (clear : j.Clear) (down : j.Down p [] x rest todo 0)
    (fresh : p.replaced = 0) (lastColumn : p.lastColumn = j.column) (above : j.FreeAll j.above)
    (below : j.FreeAll todo) (starts : x.chars = j.head ++ j.rewrite j.tail)
    (madeBelow : todo.map Entry.chars = j.rewriteAll j.below)
    (first : First j.options.letter j.pattern.toList x.chars xs occurrence ys)
    (here : width xs = j.column) (found : m = ⟨x.handle, j.above.length + 1, width xs⟩)
    (near : m.column ≤ Line.maxText) : j.Proceeds p m (j.above ++ x :: todo) := by
  have number : m.number = j.above.length + 1 := congrArg Match.number found
  have column : m.column = width xs := congrArg Match.column found
  have lastLine := down.lastLine
  have startLine := down.startLine
  have startColumn := down.startColumn
  rw [List.append_nil] at lastLine
  rw [starts] at first
  rcases down.lone clear fresh above first here with ⟨lone, m', zs, inside, free⟩
  refine .inr ⟨{ p with startColumn := p.startColumn + j.delta }, ?_, ?_⟩
  · have forth : Pass.regresses { p with startColumn := p.startColumn + j.delta } m = false := by
      rw [Pass.regresses_eq_false_iff]
      dsimp only
      omega
    rw [Pass.admit?_eq (if_pos (by omega)) near, forth, down.wrapped]
    rfl
  · apply (Scan.home starts).goesOn inside
    · simpa using found
    · intro z left' less scan' _
      rcases scan'.finish free (by simp [FreeAll]) with ⟨made, rfl⟩
      have line : z.chars = j.rewrite j.head ++ j.rewrite j.tail := by simpa using made
      have alone := clear.alone lone
      rw [rewrite_line, ← line] at alone
      refine .still ⟨?_, ?_⟩ ?_
      · rw [List.map_append, List.map_cons, ← above.rewrite, line, madeBelow, goal]
      · exact (congrArg (· + 1) fresh).trans lone.2.symm
      · intro w mem
        rcases List.mem_append.mp mem with mem | mem
        · exact above w mem
        · rcases List.mem_cons.mp mem with rfl | mem
          · exact alone
          · exact below w mem

theorem Down.turns {m : Match} (clear : j.Clear) (down : j.Down p done x rest todo left)
    (free : j.Free rest) (freeAll : j.FreeAll todo)
    (split : (j.above ++ done ++ x :: todo).take p.startLine = more ++ y :: es)
    (passed : j.FreeAll more)
    (first : First j.options.letter j.pattern.toList y.chars xs occurrence ys)
    (before : more.length < (j.above ++ done).length ∨
      more.length = (j.above ++ done).length ∧ width xs < p.resume)
    (found : m = ⟨y.handle, more.length + 1, width xs⟩) (near : m.column ≤ Line.maxText) :
    j.Proceeds p m (j.above ++ done ++ x :: todo) := by
  rcases down.bottom free freeAll with ⟨z, below, rows, starts, madeBelow, rfl, top⟩
  have finished := down.finish free freeAll
  rw [top] at split
  have number : m.number = more.length + 1 := congrArg Match.number found
  have column : m.column = width xs := congrArg Match.column found
  have lastLine := down.lastLine
  have lastColumn := down.lastColumn
  have counted := down.counted
  rw [List.length_append] at lastLine before
  rcases split_cases split with ⟨es, whole, -⟩ | ⟨rfl, rfl, -⟩ | ⟨es, -, impossible⟩
  · rw [List.append_assoc, rows] at finished ⊢
    have length := congrArg List.length whole
    rw [List.length_append, List.length_cons] at length
    have back : p.regresses m = true := by
      rw [Pass.regresses_iff]
      omega
    have rows : j.above ++ z :: below = more ++ y :: (es ++ z :: below) := by simp [whole]
    have scan := Scan.start passed whole fun w mem => j.apartAll w (List.mem_append_left _ mem)
    rw [rows]
    refine .inr ⟨{ p with wrapped := true }, ?_, ?_⟩
    · rw [Pass.admit?_of_above (by rw [down.startLine]; omega) near, back, down.wrapped]
      rfl
    · apply scan.goesRound (p := { p with wrapped := true }) first _ _ starts madeBelow
        down.startLine down.startColumn rfl
      · simpa using counted
      · simpa using found
      · rw [whole]
  -- A first match at the column of the start is not behind the last one, so it does not wrap.
  · by_cases here : p.replaced = 0 ∧ width xs = j.column
    · rcases lastColumn with ⟨-, some⟩ | ⟨rfl, lastColumn, -, -⟩
      · omega
      · rcases List.cons.inj rows with ⟨rfl, rfl⟩
        rw [List.append_nil]
        exact down.still clear here.1 lastColumn passed freeAll starts madeBelow first here.2 found
          near
    · rw [List.append_assoc, rows] at finished ⊢
      have back : p.regresses m = true := by
        rw [Pass.regresses_iff]
        omega
      apply proceeds_home clear starts first found near passed.rewrite.symm madeBelow
        down.startLine down.startColumn
      · rw [back, down.wrapped]
        rfl
      · exact fun fresh same => here ⟨fresh, same⟩
      · exact finished passed
      · rw [passed.count] at counted
        exact counted
  · simp at impossible

theorem Round.admits {m : Match} (round : j.Round p done x rest todo z below left)
    (forth : p.lastLine ≤ m.number) (ahead : m.number = p.lastLine → p.resume ≤ m.column)
    (above : m.number < p.startLine) (near : m.column ≤ Line.maxText) :
    p.admit? j.delta m = some p := by
  have lastColumn := round.lastColumn
  have regresses : p.regresses m = false := by
    rw [Pass.regresses_eq_false_iff]
    refine ⟨forth, ?_⟩
    intro number
    have := ahead number
    omega
  rw [Pass.admit?_of_above above near, regresses, Bool.or_false]
  rfl

theorem Round.here {m : Match} (round : j.Round p done x rest todo z below left)
    (first : First j.options.letter j.pattern.toList (dropBytes p.resume x.chars) xs occurrence ys)
    (found : m = ⟨x.handle, done.length + 1, width (takeBytes p.resume x.chars) + width xs⟩)
    (near : m.column ≤ Line.maxText) :
    j.Proceeds p m (done ++ x :: (todo ++ z :: below)) := by
  have number : m.number = done.length + 1 := congrArg Match.number found
  have column : m.column = width (takeBytes p.resume x.chars) + width xs :=
    congrArg Match.column found
  have reached : p.resume ≤ m.column := column ▸ first.le_column j.written
  have inside : m.number < p.startLine := by
    have length := round.length
    rw [List.length_append, List.length_cons] at length
    rw [round.startLine]
    omega
  have forth := Nat.le_of_eq (round.lastLine.trans number.symm)
  refine .inr ⟨p, round.admits forth (fun _ => reached) inside near, ?_⟩
  exact round.scan.goesRound (round.scan.dropBytes_eq ▸ first) found round.length round.start
    round.below round.startLine round.startColumn round.wrapped round.counted

theorem admit?_of_turn {h : Handle} {m : Match} (wrapped : p.wrapped = true)
    (lastLine : p.lastLine = as.length + 1) (lastColumn : p.lastColumn = p.resume)
    (before : more.length < as.length ∨ more.length = as.length ∧ width xs < p.resume)
    (found : m = ⟨h, more.length + 1, width xs⟩) (near : m.column ≤ Line.maxText) :
    p.admit? j.delta m = none := by
  have number : m.number = more.length + 1 := congrArg Match.number found
  have column : m.column = width xs := congrArg Match.column found
  have back : p.regresses m = true := by
    rw [Pass.regresses_iff]
    omega
  exact Pass.admit?_of_regresses back wrapped near

theorem Round.finish (round : j.Round p done x rest todo z below left) (free : j.Free rest)
    (freeAll : j.FreeAll todo) (head : j.Free j.head) :
    j.Finished p (done ++ x :: (todo ++ z :: below)) := by
  rcases round.scan.finish free freeAll with ⟨made, rfl⟩
  have counted := round.counted
  rw [head.count] at counted
  refine ⟨?_, counted⟩
  have rows : done ++ x :: (todo ++ z :: below) = done ++ x :: todo ++ z :: below := by simp
  rw [rows, List.map_append, made, List.map_cons, round.start, round.below, goal, head.rewrite]

theorem Round.finish_of_absent (round : j.Round p done x rest todo z below left)
    (free : j.Free (dropBytes p.resume x.chars)) (absent : j.FreeAll (todo ++ z :: below)) :
    j.Finished p (done ++ x :: (todo ++ z :: below)) := by
  rw [round.scan.dropBytes_eq] at free
  exact round.finish free (fun w mem => absent w (by simp [mem]))
    (free_head round.start (absent z (by simp)))

theorem Round.later {m : Match} (clear : j.Clear)
    (round : j.Round p done x rest todo z below left) (free : j.Free rest)
    (split : todo ++ z :: below = more ++ y :: es) (passed : j.FreeAll more)
    (first : First j.options.letter j.pattern.toList y.chars xs occurrence ys)
    (found : m = ⟨y.handle, done.length + 1 + (more.length + 1), width xs⟩)
    (near : m.column ≤ Line.maxText) :
    j.Proceeds p m (done ++ x :: (todo ++ z :: below)) := by
  have number : m.number = done.length + 1 + (more.length + 1) := congrArg Match.number found
  have lastLine := round.lastLine
  have startLine := round.startLine
  have length := round.length
  rw [List.length_append, List.length_cons] at length
  have regresses : p.regresses m = false := by
    rw [Pass.regresses_eq_false_iff]
    omega
  rcases split_cases split with ⟨es, rfl, -⟩ | ⟨rfl, rfl, -⟩ | ⟨es, rfl, -⟩
  · rw [List.length_append, List.length_cons] at length
    have scan := round.scan.pass free passed
    have rows : done ++ x :: (more ++ y :: es ++ z :: below) =
        done ++ x :: more ++ y :: (es ++ z :: below) := by simp
    refine .inr ⟨p, round.admits (by omega) (by omega) (by omega) near, ?_⟩
    rw [rows]
    apply scan.goesRound first _ _ round.start round.below startLine round.startColumn round.wrapped
      round.counted
    · rw [found]
      simp
      omega
    · simpa using round.length
  · have rows : done ++ x :: (todo ++ z :: below) = done ++ x :: todo ++ z :: below := by simp
    rcases round.scan.finish free passed with ⟨made, rfl⟩
    have finished := round.finish free passed
    rw [rows] at finished ⊢
    have replaced := round.replaced
    apply proceeds_home clear round.start first _ near made round.below startLine round.startColumn _
      (by omega) finished round.counted
    · rw [found]
      simp
      omega
    · rw [regresses, round.wrapped]
      rfl
  · have home : j.Free z.chars := passed z (by simp)
    have freeAll : j.FreeAll todo := fun w mem => passed w (by simp [mem])
    refine .inl ⟨?_, round.finish free freeAll (free_head round.start home)⟩
    rw [List.length_append, List.length_cons] at number
    have behind : p.beforeStart m = false := by
      rw [Pass.beforeStart_eq_false_iff]
      omega
    rw [Pass.admit?_of_behind behind near, round.wrapped, Bool.or_true]
    rfl

/-! ### Where it ends -/

theorem Home.finish (home : j.Home p above x before rest below left) (free : j.Free rest) :
    j.Finished p (above ++ x :: below) := by
  rcases home.scan.finish free (by simp [FreeAll]) with ⟨made, rfl⟩
  refine ⟨?_, home.counted⟩
  have here : x.chars = j.rewrite j.head ++ j.rewrite j.tail := by simpa using made
  rw [List.map_append, List.map_cons, home.above, home.below, here, goal]

theorem Home.free_rest (home : j.Home p above x before rest below left)
    (free : j.Free (dropBytes p.resume x.chars)) : j.Free rest := by
  unfold Free at free
  rw [home.scan.ahead] at free
  exact free.left

theorem Home.here {m : Match} (clear : j.Clear) (home : j.Home p above x before rest below left)
    (first : First j.options.letter j.pattern.toList (dropBytes p.resume x.chars) xs occurrence ys)
    (found : m = ⟨x.handle, above.length + 1, width (takeBytes p.resume x.chars) + width xs⟩)
    (near : m.column ≤ Line.maxText) : j.Proceeds p m (above ++ x :: below) := by
  have number : m.number = above.length + 1 := congrArg Match.number found
  have column : m.column = width (takeBytes p.resume x.chars) + width xs :=
    congrArg Match.column found
  have length := length_of_rewriteAll home.above
  have lastLine := home.lastLine
  have lastColumn := home.lastColumn
  have resume := home.resume
  have replaced := home.replaced
  have regresses : p.regresses m = false := by
    rw [Pass.regresses_eq_false_iff]
    omega
  apply home.scan.proceedsHome clear (home.scan.ahead ▸ first) found near home.above home.below
    home.startLine _ _ home.head (by omega) home.finish home.counted
  · rw [home.startColumn, ← resume]
  · rw [regresses, home.wrapped]
    rfl

theorem Home.later {m : Match} (home : j.Home p above x before rest below left)
    (free : j.Free (dropBytes p.resume x.chars))
    (found : m.number = above.length + 1 + (more.length + 1)) (near : m.column ≤ Line.maxText) :
    j.Proceeds p m (above ++ x :: below) := by
  have length := length_of_rewriteAll home.above
  have startLine := home.startLine
  have behind : p.beforeStart m = false := by
    rw [Pass.beforeStart_eq_false_iff]
    omega
  refine .inl ⟨?_, home.finish (home.free_rest free)⟩
  rw [Pass.admit?_of_behind behind near, home.wrapped, Bool.or_true]
  rfl

/-- A pass does right by what the search finds. -/
theorem Stage.proceeds {m : Match} (clear : j.Clear) (stage : j.Stage p as x bs)
    (found : Found j.options j.pattern p.resume p.startLine as x bs (some m))
    (near : m.column ≤ Line.maxText) : j.Proceeds p m (as ++ x :: bs) := by
  cases stage with
  | down down =>
    cases found with
    | here first => exact down.here first rfl near
    | below free split passed first =>
      subst split
      exact down.later (down.scan.dropBytes_eq ▸ free) passed first rfl near
    | above free absent split passed first before =>
      exact down.turns clear (down.scan.dropBytes_eq ▸ free) absent split passed first before rfl
        near
  | round round =>
    cases found with
    | here first => exact round.here first rfl near
    | below free split passed first =>
      exact round.later clear (round.scan.dropBytes_eq ▸ free) split passed first rfl near
    | above free absent split passed first before =>
      refine .inl ⟨admit?_of_turn round.wrapped round.lastLine round.lastColumn before rfl near, ?_⟩
      exact round.finish_of_absent free absent
  | home home =>
    cases found with
    | here first => exact home.here clear first rfl near
    | below free split passed first => exact home.later free rfl near
    | above free absent split passed first before =>
      have length := length_of_rewriteAll home.above
      have lastLine := home.lastLine
      rw [← length] at lastLine
      exact .inl ⟨admit?_of_turn home.wrapped lastLine home.lastColumn before rfl near,
        home.finish (home.free_rest free)⟩
  | still _ free =>
    rcases found.occurs j.written with ⟨y, mem, occurs⟩
    rw [(free y mem).columns_nil] at occurs
    contradiction

theorem Stage.finished (stage : j.Stage p as x bs)
    (nowhere : Found j.options j.pattern p.resume p.startLine as x bs none) :
    j.Finished p (as ++ x :: bs) := by
  cases nowhere with
  | nowhere free absent top =>
    cases stage with
    | down down =>
      rw [down.scan.dropBytes_eq] at free
      rcases down.bottom free absent with ⟨z, below, -, starts, -, -, reached⟩
      rw [reached] at top
      exact down.finish free absent (fun w mem => top w (by simp [mem]))
        (free_head starts (top z (by simp)))
    | round round => exact round.finish_of_absent free absent
    | home home => exact home.finish (home.free_rest free)
    | still finished _ => exact finished

end Step

end Job

end RobotScript.Editor
