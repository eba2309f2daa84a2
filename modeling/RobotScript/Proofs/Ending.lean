import Mathlib.Algebra.Order.BigOperators.Group.List
import Mathlib.Algebra.Order.Ring.Nat
import RobotScript.Proofs.Capacity
import RobotScript.Proofs.Finding
import RobotScript.Proofs.ReplaceAll
import RobotScript.Proofs.Returning
/-!
Replacing all matches ends. Each match uses up some of the macros that may still be expanded, or it
rewrites a line: with a text that is shorter, or at a place further behind, where the search comes
back to an earlier one only once.
-/
namespace RobotScript

open Chars (width)

namespace Script

variable {s s' : Script} {capacity bound : Nat}

theorem Weightless.checkCapacity_blank (weightless : s.Weightless) :
    ∃ err, s.checkCapacity 0 Line.blank.size = .error err := by
  cases checked : s.checkCapacity 0 Line.blank.size with
  | error err => exact ⟨err, rfl⟩
  | ok _ =>
    have room := checkCapacity_eq_ok_iff.mp checked
    have full := weightless.full
    have heavy : Line.blank.size = 3 := rfl
    rw [weightless.programSize_eq, heavy] at room
    omega

theorem Weightless.growBelow_eq (weightless : s.Weightless) : s.growBelow = s := by
  rcases weightless.checkCapacity_blank with ⟨err, refused⟩
  unfold growBelow insertBlankAt
  rw [refused]
  split <;> rfl

theorem exists_setCursor_moveUp {steps : Nat} (done : s.moveUp steps = .ok s') :
    ∃ h n, s' = s.setCursor h n ∧ n ≤ s.cursor.line := by
  induction steps generalizing s with
  | zero =>
    exact ⟨s.cursor.handle, s.cursor.line, (Except.ok.inj done).symm, Nat.le_refl _⟩
  | succ steps ih =>
    unfold moveUp at done
    split at done
    next h _ =>
      rcases bind_eq_ok.mp done with ⟨number, up, rest⟩
      rcases checkedSub_eq_ok.mp up with ⟨-, rfl⟩
      rcases ih rest with ⟨h', n, moved, bound⟩
      exact ⟨h', n, moved, Nat.le_trans bound (Nat.sub_le _ _)⟩
    next =>
      exact ⟨s.cursor.handle, s.cursor.line, (Except.ok.inj done).symm, Nat.le_refl _⟩

theorem Weightless.exists_setCursor_moveDown (weightless : s.Weightless) (steps : Nat) :
    ∃ h n, s.moveDown steps = s.setCursor h n ∧ n ≤ s.cursor.line + steps := by
  induction steps generalizing s with
  | zero => exact ⟨s.cursor.handle, s.cursor.line, rfl, Nat.le_refl _⟩
  | succ steps ih =>
    unfold moveDown
    split
    next h _ =>
      have moved := editable_weightless.setCursor weightless h (s.cursor.line + 1)
      rcases ih moved with ⟨h', n, moved, bound⟩
      exact ⟨h', n, moved, Nat.le_trans bound (by dsimp only [setCursor]; omega)⟩
    next =>
      rw [weightless.growBelow_eq]
      exact ⟨s.cursor.handle, s.cursor.line, rfl, Nat.le_add_right _ _⟩

theorem Within.exists_setCursor_gotoLine (within : s.Within capacity bound) {number : Nat}
    (done : s.gotoLine number = .ok s') :
    ∃ h n, s' = s.setCursor h n ∧ n ≤ max s.cursor.line (max s.lineCount 1) := by
  rcases within.kind with ⟨es, sound⟩ | weightless
  · rcases sound.gotoLine_eq number with ⟨h, -, moved⟩
    cases done.symm.trans moved
    refine ⟨h, _, rfl, ?_⟩
    rw [sound.lineCount]
    omega
  · unfold gotoLine moveCursor at done
    dsimp only at done
    split at done
    next up =>
      rcases exists_setCursor_moveUp done with ⟨h, n, moved, bound⟩
      exact ⟨h, n, moved, by omega⟩
    next down =>
      rcases weightless.exists_setCursor_moveDown _ with ⟨h, n, moved, bound⟩
      exact ⟨h, n, (Except.ok.inj done).symm.trans moved, by omega⟩

end Script

namespace Links

variable {l : Links} {h : Handle} {old line : Line}

def textSize (l : Links) : Nat :=
  (l.held.map fun x => Text.size x.line.text).sum

theorem textSize_setLine_lt (found : l.get? h = some old)
    (shorter : Text.size line.text < Text.size old.text) :
    (l.setLine h line).textSize < l.textSize := by
  have mem := get?_eq_some_iff.mp found
  have only : ∀ x ∈ l.held, x.handle = h → x.line = old := by
    rintro x inside rfl
    have again := get?_eq_some_iff.mpr inside
    exact Option.some.inj (again.symm.trans found)
  have written := ((l.held_setLine h line).map fun x => Text.size x.line.text).sum_eq
  rw [textSize, written, textSize, List.map_map]
  apply List.sum_lt_sum
  · intro x inside
    dsimp only [Function.comp]
    split
    next same =>
      rw [only x inside same]
      exact Nat.le_of_lt shorter
    next => exact Nat.le_refl _
  · refine ⟨_, mem, ?_⟩
    dsimp only [Function.comp]
    rw [if_pos rfl]
    exact shorter

end Links

namespace Editor

variable {c : Config} {e e' : Editor} {o : SearchOptions} {pattern replacement : String}
  {a b : Pass × Editor}

theorem findFrom_held {P : Entry → Prop} {start last : Nat} {m : Match}
    (holds : e.script.Holds P) (found : e.findFrom pattern o start last = some m) :
    (∃ line, e.script.get? m.handle = some line ∧ o.Carries pattern line.text m.column) ∧
      m.number ≤ e.script.cursor.line + e.script.lineCount + 3 ∧ pattern ≠ "" := by
  have written : pattern ≠ "" := by
    rintro rfl
    cases found
  have look : ∀ {y : Entry}, y ∈ e.script.links.held → e.script.get? y.handle = some y.line :=
    fun mem => Links.get?_eq_some_iff.mpr mem
  have lower := e.script.links.length_below_le e.script.cursor.handle
  have upper := e.script.links.length_below_le .top
  rw [← Links.length_held, ← holds.counted] at lower upper
  unfold findFrom at found
  dsimp only at found
  rw [if_neg (by simpa using written)] at found
  simp only [Option.orElse_eq_orElse, Option.orElse_eq_or] at found
  rcases Option.or_eq_some_iff.mp found with here | ⟨-, found⟩
  · rcases Option.bind_eq_some_iff.mp here with ⟨line, current, here⟩
    rcases Option.bind_eq_some_iff.mp here with ⟨column, there, same⟩
    cases same
    have least := o.findIn_least written 0 start line
    rw [there] at least
    rcases least.1 with ⟨column', -, carries, same⟩
    rcases Prod.mk.inj (toLex_inj.mp same) with ⟨-, rfl⟩
    exact ⟨⟨line, current, carries⟩, by dsimp only; omega, written⟩
  rcases Option.or_eq_some_iff.mp found with below | ⟨-, above⟩
  · rcases findAmong_split below with ⟨as, y, bs, split, handle, number, carries⟩
    have mem : y ∈ e.script.links.below e.script.cursor.handle := by simp [split]
    have bound := congrArg List.length split
    rw [List.length_append, List.length_cons] at bound
    refine ⟨⟨y.line, ?_, carries⟩, by omega, written⟩
    rw [handle]
    exact look (Links.mem_held_of_mem_below mem)
  · rw [Option.ite_none_right_eq_some] at above
    rcases findAmong_split above.2 with ⟨as, y, bs, split, handle, number, carries⟩
    have mem : y ∈ e.script.entries.take last := by simp [split]
    have bound := congrArg List.length split
    have part := List.length_take_le' last e.script.entries
    have whole : e.script.entries.length = (e.script.links.below .top).length := rfl
    rw [List.length_append, List.length_cons] at bound
    refine ⟨⟨y.line, ?_, carries⟩, by omega, written⟩
    rw [handle]
    exact look (Links.mem_held_of_mem_below (List.mem_of_mem_take mem))

def budget (e : Editor) : Nat :=
  e.config.maxMacroRepeat - e.guards.expansions

theorem suppress_eq (e : Editor) (h : Handle) (prior : Line) :
    (∃ err, e.suppress h prior = ⟨.error err, e⟩) ∨
      ∃ line, e.suppress h prior = ⟨.ok .suppressed, e.setLine h line⟩ ∧ line.text = "" := by
  unfold suppress writePlain
  rw [compile_empty]
  dsimp only
  rw [if_neg (by decide)]
  split
  next err _ => exact .inl ⟨err, rfl⟩
  next => exact .inr ⟨_, rfl, rfl⟩

/-- An update that is accepted writes one line, without a text in place of a macro that is held back,
or it expands a macro. -/
theorem update_writes_or_expands {h : Handle} {text : String} {edited : Edited Outcome}
    {outcome : Outcome} (done : e.update h text = .ok edited)
    (accepted : edited.result = .ok outcome) :
    (∃ line, edited.editor = e.setLine h line ∧ (callsMacro text = true → line.text = "")) ∨
      edited.editor.budget < e.budget := by
  cases calls : callsMacro text with
  | false =>
    rcases exists_setLine_of_update calls done accepted with ⟨line, written⟩
    exact .inl ⟨line, written, by simp⟩
  | true =>
    have write := writeCase e.levelsLeft e h text
    have spent := writeWith_bounded e.levelsLeft e h text
    unfold update at done
    rw [done] at spent
    generalize same : writeWith e.levelsLeft e h text = result at write done
    cases write with
    | missing | unknown | unnumbered =>
      cases done
      contradiction
    | endless => cases done
    | plain _ plain => simp [plain] at calls
    | held found =>
      rcases suppress_eq e h _ with ⟨err, refused⟩ | ⟨line, written, blank⟩
      · rw [refused] at done
        cases done
        contradiction
      · rw [written] at done
        cases done
        exact .inl ⟨line, rfl, fun _ => blank⟩
    | @expanded prior t below number levels found _ known free numbered =>
      rw [expandTemplate_eq] at done
      rcases bind_eq_ok.mp done with ⟨values, bound, -⟩
      rw [levels, logWith_eq_expandLog found calls known free numbered, expandLog, bound] at spent
      have ceiling := spent.ceiling
      have expansions := spent.expansions
      right
      unfold budget
      rw [spent.frame.config]
      rw [List.length_cons] at ceiling expansions
      omega

/-! ### One step of a pass -/

/-- What a pass does to go on from one state to the next: it comes upon a match, takes it into
account, and updates its line. -/
structure Step (pattern replacement : String) (o : SearchOptions) (a b : Pass × Editor) (m : Match)
    (q : Pass) (there : Editor) (line : Line) (edited : Edited Outcome) : Prop where
  found : a.2.findFrom pattern o a.1.resume a.1.startLine = some m
  admitted : a.1.admit? (Text.size replacement - Text.size pattern) m = some q
  moved : a.2.moveTo m = .ok there
  current : there.script.get? m.handle = some line
  updated : there.update m.handle
    (Text.cut Line.maxText (splicedAt line m pattern replacement)) = .ok edited
  accepted : ∃ outcome, edited.result = .ok outcome
  pass : b.1 = q.advance m (m.column + Text.size replacement)
  editor : b.2 = edited.editor.mapScript (·.setColumn (m.column + Text.size replacement))

theorem Replaces.exists_step (next : Replaces pattern replacement o a b) :
    ∃ m q there line edited, Step pattern replacement o a b m q there line edited := by
  rcases b with ⟨p', e'⟩
  cases nextCase next with
  | @replaced m q there edited outcome found admitted moved replaced accepted =>
    unfold replaceAt at replaced
    split at replaced
    · cases replaced
      contradiction
    next line current =>
      exact ⟨m, q, there, line, edited, found, admitted, moved, current, replaced,
        ⟨outcome, accepted⟩, rfl, rfl⟩

theorem Replaces.reachable (next : Replaces pattern replacement o a b)
    (reached : Reachable c a.2) : Reachable c b.2 := by
  rcases next.exists_step with ⟨m, q, there, line, edited, step⟩
  rcases moveTo_eq_ok.mp step.moved with ⟨script, moved, same⟩
  have gone : a.2.perform (.gotoLine m.number) = .ok { a.2 with script } :=
    map_eq_ok.mpr ⟨script, moved, rfl⟩
  have arrived : Reachable c there := by
    rw [← same]
    exact .perform (.setColumn m.column) (.perform (.gotoLine m.number) reached gone) rfl
  have updated : Reachable c edited.editor :=
    .perform (.edit (.update m.handle _)) arrived
      (map_eq_ok.mpr ⟨_, map_eq_ok.mpr ⟨edited, step.updated, rfl⟩, rfl⟩)
  rw [step.editor]
  exact .perform (.setColumn _) updated rfl

theorem Reachable.holds (reached : Reachable c e) : e.script.Holds fun _ => True := by
  rcases reached.within with ⟨bound, within⟩
  rcases within.kind with ⟨es, sound⟩ | weightless
  · exact sound.toLists.balanced.holds
  · exact weightless.balanced.holds

theorem Reachable.exists_moveTo (reached : Reachable c e) {m : Match} {there : Editor}
    (moved : e.moveTo m = .ok there) :
    ∃ h n, there = { e with script := (e.script.setCursor h n).setColumn m.column } ∧
      n ≤ max e.script.cursor.line (max e.script.lineCount 1) := by
  rcases moveTo_eq_ok.mp moved with ⟨script, gone, same⟩
  rcases reached.within with ⟨bound, within⟩
  rcases within.exists_setCursor_gotoLine gone with ⟨h, n, rfl, inside⟩
  exact ⟨h, n, same.symm, inside⟩

theorem Step.expands_or_writes {m : Match} {q : Pass} {there : Editor} {old : Line}
    {edited : Edited Outcome} (step : Step pattern replacement o a b m q there old edited)
    (reached : Reachable c a.2) :
    b.2.budget < a.2.budget ∨
      b.2.budget = a.2.budget ∧ a.2.script.get? m.handle = some old ∧
        b.2.script.cursor.line ≤ max a.2.script.cursor.line (max a.2.script.lineCount 1) ∧
        b.2.script.lineCount = a.2.script.lineCount ∧
        ∃ line, b.2.script.links = a.2.script.links.setLine m.handle line ∧
          (callsMacro (Text.cut Line.maxText (splicedAt old m pattern replacement)) = true →
            line.text = "") := by
  rcases step.accepted with ⟨outcome, accepted⟩
  rcases reached.exists_moveTo step.moved with ⟨h, n, rfl, inside⟩
  have current := step.current
  rcases update_writes_or_expands step.updated accepted with ⟨line, written, blank⟩ | expanded
  · right
    have found : a.2.script.get? m.handle = some old := current
    rw [step.editor, written]
    have laid : ((a.2.script.setCursor h n).setColumn m.column).setLine m.handle line =
        { (a.2.script.setCursor h n).setColumn m.column with
          links := a.2.script.links.setLine m.handle line
          totalSize := a.2.script.totalSize - old.size + line.size } := by
      unfold Script.setLine
      rw [current]
      rfl
    unfold mapScript setLine
    dsimp only
    rw [laid]
    exact ⟨rfl, found, inside, rfl, line, rfl, blank⟩
  · left
    rw [step.editor]
    exact expanded

/-! ### What each step uses up -/

theorem size_splicedAt {line : Line} {m : Match} (replacement : String)
    (carries : o.Carries pattern line.text m.column) :
    Text.size (splicedAt line m pattern replacement) + Text.size pattern =
      Text.size line.text + Text.size replacement := by
  rcases carries with ⟨xs, occurrence, ys, whole, same, column⟩
  have wide : width occurrence = Text.size pattern := Chars.width_match o.letter_size same
  rw [splicedAt, ← wide, ← column, Text.size, Text.toList_splice whole, Text.size, whole]
  simp only [Chars.width_append, Text.size]
  omega

/-- Whether a line is left with a text that is no longer than what is put together for the match that
a pass comes upon, unless that calls a macro. -/
def StoresNoLonger (pattern replacement : String) (o : SearchOptions) (p : Pass) (e e' : Editor) :
    Prop :=
  ∀ m ∈ e.findFrom pattern o p.resume p.startLine, ∀ line ∈ e.script.get? m.handle,
    callsMacro (Text.cut Line.maxText (splicedAt line m pattern replacement)) = false →
      ∀ line' ∈ e'.script.get? m.handle,
        Text.size line'.text ≤ Text.size (splicedAt line m pattern replacement)

instance (pattern replacement : String) (o : SearchOptions) (p : Pass) (e e' : Editor) :
    Decidable (StoresNoLonger pattern replacement o p e e') :=
  inferInstanceAs (Decidable (∀ m ∈ e.findFrom pattern o p.resume p.startLine,
    ∀ line ∈ e.script.get? m.handle, _ → ∀ line' ∈ e'.script.get? m.handle, _))

/-- Whether that is so for each line that a pass rewrites from some state on. -/
def NeverLonger (pattern replacement : String) (o : SearchOptions) (p : Pass) (e : Editor) : Prop :=
  ∀ a b, Relation.ReflTransGen (Replaces pattern replacement o) (p, e) a →
    Replaces pattern replacement o a b → StoresNoLonger pattern replacement o a.1 a.2 b.2

theorem Step.textSize_lt {m : Match} {q : Pass} {there : Editor} {old : Line}
    {edited : Edited Outcome} (step : Step pattern "" o a b m q there old edited)
    (reached : Reachable c a.2)
    (short : StoresNoLonger pattern "" o a.1 a.2 b.2) :
    b.2.budget < a.2.budget ∨
      b.2.budget = a.2.budget ∧ b.2.script.links.textSize < a.2.script.links.textSize := by
  rcases step.expands_or_writes reached with expanded | ⟨same, found, -, -, line, written, blank⟩
  · exact .inl expanded
  right
  rcases findFrom_held reached.holds step.found with ⟨⟨line', found', carries⟩, -, filled⟩
  have old_eq : line' = old := Option.some.inj (found'.symm.trans found)
  rw [old_eq] at carries
  have parts := size_splicedAt "" carries
  have wide : 0 < Text.size pattern := Chars.width_pos (by simpa using filled)
  have none : Text.size "" = 0 := rfl
  have laid : b.2.script.get? m.handle = some line := by
    rw [Script.get?, written]
    exact Links.get?_setLine found line
  have shorter : Text.size line.text < Text.size old.text := by
    cases calls : callsMacro (Text.cut Line.maxText (splicedAt old m pattern "")) with
    | true =>
      rw [blank calls]
      omega
    | false =>
      have kept := short m step.found old found calls line laid
      omega
  refine ⟨same, ?_⟩
  rw [written]
  exact Links.textSize_setLine_lt found shorter

def farthest (e : Editor) : Nat :=
  max e.script.cursor.line (max e.script.lineCount 1) + e.script.lineCount + 4

/-- What a pass uses up that puts something in for each match: the one time that it goes back, macros,
lines below, and columns to the right. -/
def ahead (replacement : String) (a : Pass × Editor) : Nat ×ₗ Nat ×ₗ Nat ×ₗ Nat :=
  toLex (if a.1.wrapped then 0 else 1, toLex (a.2.budget, toLex (a.2.farthest - a.1.lastLine,
    (Line.maxText + Text.size replacement + 1 - a.1.lastColumn).toNat)))

theorem Step.ahead_lt {m : Match} {q : Pass} {there : Editor} {old : Line}
    {edited : Edited Outcome} (step : Step pattern replacement o a b m q there old edited)
    (reached : Reachable c a.2) (written : replacement ≠ "") :
    ahead replacement b < ahead replacement a := by
  rcases Pass.admit?_eq_some step.admitted with ⟨near, -, wrapped, once⟩
  have wide : 0 < Text.size replacement := Chars.width_pos (by simpa using written)
  have line : b.1.lastLine = m.number := congrArg Pass.lastLine step.pass
  have column : b.1.lastColumn = (m.column + Text.size replacement : Nat) :=
    congrArg Pass.lastColumn step.pass
  have round : b.1.wrapped = (a.1.wrapped || a.1.regresses m) :=
    (congrArg Pass.wrapped step.pass).trans wrapped
  unfold ahead
  rw [Prod.Lex.toLex_lt_toLex, Prod.Lex.toLex_lt_toLex, Prod.Lex.toLex_lt_toLex]
  dsimp only
  rw [round, line, column]
  cases back : a.1.regresses m with
  | true =>
    rw [back, Bool.true_and] at once
    rw [once]
    exact .inl (by decide)
  | false =>
    rw [Bool.or_false]
    refine .inr ⟨rfl, ?_⟩
    rcases step.expands_or_writes reached with expanded | ⟨same, -, cursor, count, -⟩
    · exact .inl expanded
    refine .inr ⟨same, ?_⟩
    rcases findFrom_held reached.holds step.found with ⟨-, number, -⟩
    have forth : a.1.lastLine ≤ m.number ∧
        (m.number = a.1.lastLine → a.1.lastColumn ≤ (m.column : Int)) := by
      unfold Pass.regresses at back
      simp only [Bool.or_eq_false_iff, Bool.and_eq_false_iff, beq_eq_false_iff_ne,
        decide_eq_false_iff_not, Nat.not_lt, Int.not_lt] at back
      exact ⟨back.2, fun here => back.1.resolve_left (absurd here)⟩
    unfold farthest
    rw [count]
    rcases Nat.eq_or_lt_of_le forth.1 with here | below
    · have right := forth.2 here.symm
      omega
    · exact .inl (by omega)

/-! ### How far the start of a pass is moved -/

/-- Whether the start of a pass, which was at some column, stays near it: going forth, the pass comes
upon the start once at most, and having come round it passes by each column of its line once. -/
structure Pass.Anchored (column put taken : Nat) (p : Pass) : Prop where
  above : -(taken : Int) ≤ p.startColumn
  forth : p.wrapped = false →
    p.startColumn = column ∧ (p.startLine < p.lastLine ∨
      p.startLine = p.lastLine ∧ p.startColumn ≤ p.lastColumn) ∨
    p.startColumn ≤ column + put ∧ (p.startLine < p.lastLine ∨
      p.startLine = p.lastLine ∧ p.startColumn < p.lastColumn)
  round : p.wrapped = true → p.lastLine ≤ p.startLine ∧ p.lastColumn ≤ Line.maxText + put ∧
    p.startColumn ≤ column + 2 * put + if p.lastLine = p.startLine then p.lastColumn else 0

theorem Pass.Anchored.advance {column put taken : Nat} {p q : Pass} {m : Match}
    (anchored : p.Anchored column put taken) (written : 0 < taken)
    (admitted : p.admit? (put - taken) m = some q) :
    (q.advance m (m.column + put)).Anchored column put taken := by
  rcases Pass.start_of_admit? admitted with ⟨line, start, before⟩
  rcases Pass.admit?_eq_some admitted with ⟨near, -, wrapped, once⟩
  have above := anchored.above
  constructor
  · change -(taken : Int) ≤ q.startColumn
    rw [start]
    split <;> omega
  · intro forth
    change q.wrapped = false at forth
    rw [wrapped, Bool.or_eq_false_iff] at forth
    have ahead := Pass.regresses_eq_false_iff.mp forth.2
    have earlier := anchored.forth forth.1
    change q.startColumn = column ∧ (q.startLine < m.number ∨
        q.startLine = m.number ∧ q.startColumn ≤ (m.column + put : Nat)) ∨
      q.startColumn ≤ column + put ∧ (q.startLine < m.number ∨
        q.startLine = m.number ∧ q.startColumn < (m.column + put : Nat))
    rw [line, start]
    split <;> omega
  · intro round
    change q.wrapped = true at round
    have inside := before round
    simp only [Pass.beforeStart, Bool.or_eq_true, Bool.and_eq_true, beq_iff_eq,
      decide_eq_true_eq] at inside
    change m.number ≤ q.startLine ∧ ((m.column + put : Nat) : Int) ≤ Line.maxText + put ∧
      q.startColumn ≤ column + 2 * put +
        if m.number = q.startLine then ((m.column + put : Nat) : Int) else 0
    rw [line, start] at inside ⊢
    cases early : p.wrapped with
    | false =>
      have earlier := anchored.forth early
      split at inside <;> split <;> omega
    | true =>
      -- The pass has come round before, so it does not go back to this match.
      rw [early, Bool.and_true] at once
      have ahead := Pass.regresses_eq_false_iff.mp once
      have earlier := anchored.round early
      split at earlier <;> split at inside <;> split <;> omega

theorem Pass.Anchored.overflows_eq_false {column put taken : Nat} {p : Pass} {m : Match}
    (anchored : p.Anchored column put taken)
    (small : column + 4 * put + Line.maxText < 2 ^ 63) (short : taken ≤ 2 ^ 63) :
    p.overflows (put - taken) m = false := by
  have above := anchored.above
  have bound : p.startColumn ≤ column + 3 * put + Line.maxText := by
    cases wrapped : p.wrapped with
    | false =>
      have earlier := anchored.forth wrapped
      omega
    | true =>
      have earlier := anchored.round wrapped
      split at earlier <;> omega
  have room : Bounds.maxSigned64 = 2 ^ 63 - 1 := rfl
  unfold Pass.overflows
  simp only [Bool.and_eq_false_iff, Bool.or_eq_false_iff, decide_eq_false_iff_not, room]
  omega

theorem Pass.anchored_start {put taken : Nat} {c : Cursor} (small : c.column < 2 ^ 63) :
    (Pass.start c).Anchored c.column put taken := by
  have start : (Pass.start c).startColumn = c.column := by
    simp only [Pass.start, signed64_of_lt small]
  have last : (Pass.start c).lastColumn = c.column := start
  refine ⟨?_, fun _ => .inl ⟨start, .inr ⟨rfl, ?_⟩⟩, ?_⟩
  · omega
  · omega
  · intro wrapped
    cases wrapped

/-! ### Whole passes -/

/-- How a pass goes on to its end: how many matches it replaces, how often it goes back on the way,
and what comes of it. -/
inductive Ends (pattern replacement : String) (o : SearchOptions) : Pass → Editor → Nat → Nat →
    Except Fault (ReplaceSummary × Editor) → Prop
  | done {p : Pass} {e e' : Editor} {summary : ReplaceSummary} :
    replaceNext pattern replacement o p e = .ok (.done summary e') →
    Ends pattern replacement o p e 0 0 (.ok (summary, e'))
  | fault {p : Pass} {e : Editor} {fault : Fault} :
    replaceNext pattern replacement o p e = .error fault →
    Ends pattern replacement o p e 0 0 (.error fault)
  | more {p p' : Pass} {e e' : Editor} {m : Match} {steps back : Nat}
    {result : Except Fault (ReplaceSummary × Editor)} :
    e.findFrom pattern o p.resume p.startLine = some m →
    replaceNext pattern replacement o p e = .ok (.more p' e') →
    Ends pattern replacement o p' e' steps back result →
    Ends pattern replacement o p e (steps + 1) (back + if p.regresses m then 1 else 0) result

variable {p : Pass} {steps back : Nat} {result : Except Fault (ReplaceSummary × Editor)}

/-- A pass ends if each of its steps uses something up. -/
theorem exists_ends {α : Type} [Preorder α] [WellFoundedLT α] (measure : Pass × Editor → α)
    (less : ∀ a b, Relation.ReflTransGen (Replaces pattern replacement o) (p, e) a →
      Replaces pattern replacement o a b → measure b < measure a) :
    ∃ steps back result, Ends pattern replacement o p e steps back result := by
  generalize start : measure (p, e) = n
  induction n using WellFoundedLT.induction generalizing p e with
  | ind n ih =>
    cases next : replaceNext pattern replacement o p e with
    | error fault => exact ⟨0, 0, _, .fault next⟩
    | ok step =>
      cases step with
      | done summary e' => exact ⟨0, 0, _, .done next⟩
      | more p' e' =>
        have replaces : Replaces pattern replacement o (p, e) (p', e') := next
        rcases replaces.exists_step with ⟨m, q, there, line, edited, step⟩
        have smaller := less (p, e) (p', e') .refl replaces
        rw [start] at smaller
        rcases ih _ smaller (fun a b reached => less a b (.head replaces reached)) rfl with
          ⟨steps, back, result, ends⟩
        exact ⟨_, _, result, .more step.found next ends⟩

theorem Ends.back_le (ends : Ends pattern replacement o p e steps back result) :
    back ≤ if p.wrapped then 0 else 1 := by
  induction ends with
  | done _ => exact Nat.zero_le _
  | fault _ => exact Nat.zero_le _
  | @more p p' e e' m steps back result found next ends ih =>
    have replaces : Replaces pattern replacement o (p, e) (p', e') := next
    rcases replaces.exists_step with ⟨m', q, there, line, edited, step⟩
    have same : m' = m := Option.some.inj (step.found.symm.trans found)
    rcases Pass.admit?_eq_some (same ▸ step.admitted) with ⟨-, -, wrapped, once⟩
    have round : p'.wrapped = (p.wrapped || p.regresses m) :=
      (congrArg Pass.wrapped step.pass).trans wrapped
    rw [round] at ih
    dsimp only at once
    cases goes : p.regresses m <;> cases wraps : p.wrapped <;>
      simp only [goes, wraps, Bool.or_false, Bool.or_true, Bool.and_self, if_true, if_false,
        Bool.false_eq_true, Bool.true_eq_false] at ih once ⊢ <;> omega

theorem Ends.replaced_eq (ends : Ends pattern replacement o p e steps back result)
    {summary : ReplaceSummary} (done : result = .ok (summary, e')) :
    summary.replaced = p.replaced + steps := by
  induction ends with
  | done next =>
    cases done
    cases nextCase next with
    | missing | passed => rfl
    | refused _ admitted => exact (Pass.admit?_eq_some admitted).2.1
  | fault _ => cases done
  | @more p p' e e'' m steps back result found next ends ih =>
    have replaces : Replaces pattern replacement o (p, e) (p', e'') := next
    rcases replaces.exists_step with ⟨m', q, there, line, edited, step⟩
    have counted : p'.replaced = q.replaced + 1 := congrArg Pass.replaced step.pass
    have same := (Pass.admit?_eq_some step.admitted).2.1
    rw [ih done, counted, same]
    dsimp only
    omega

theorem replaceAt_returns {es : List Entry} (sound : e.script.Sound es) (ranged : e.macros.Ranged)
    (m : Match) (length : Nat) (replacement : String) :
    ∃ edited, e.replaceAt m length replacement = .ok edited := by
  unfold replaceAt
  split
  · exact ⟨_, rfl⟩
  · exact update_returns sound ranged m.handle _

theorem replaceNext_eq_error {es : List Entry} {fault : Fault} (sound : e.script.Sound es)
    (ranged : e.macros.Ranged)
    (stopped : replaceNext pattern replacement o p e = .error fault) :
    ∃ m, e.findFrom pattern o p.resume p.startLine = some m ∧
      p.overflows (Text.size replacement - Text.size pattern) m = true := by
  unfold replaceNext at stopped
  rw [seekFrom_eq sound] at stopped
  simp only [bind, Except.bind] at stopped
  split at stopped
  · cases stopped
  next m found =>
    split at stopped
    next far => exact ⟨m, found, far⟩
    next =>
      split at stopped
      · cases stopped
      have moved := moveTo_eq sound (findFrom_at sound found)
      have there : ({ e.script with cursor := ⟨m.handle, m.number, m.column⟩ } : Script).Sound es :=
        ⟨⟨sound.links, sound.lineCount, sound.owned, sound.size⟩, findFrom_at sound found, sound.mark⟩
      rcases replaceAt_returns (e := { e with script := _ }) there ranged m (Text.size pattern)
        replacement with ⟨edited, replaced⟩
      rw [moved] at stopped
      dsimp only at stopped
      rw [replaced] at stopped
      dsimp only at stopped
      split at stopped <;> cases stopped

theorem Replaces.macros_eq (next : Replaces pattern replacement o a b) :
    b.2.macros = a.2.macros := by
  rcases next.exists_step with ⟨m, q, there, line, edited, step⟩
  rcases moveTo_eq_ok.mp step.moved with ⟨script, -, same⟩
  rw [step.editor]
  have kept := (writeWith_frame step.updated).macros
  rw [← same] at kept
  exact kept

/-- In sound scripts a pass comes to an end by itself, if the start is nowhere moved too far. -/
theorem Ends.exists_ok (ends : Ends pattern replacement o p e steps back result) {column : Nat}
    (anchored : p.Anchored column (Text.size replacement) (Text.size pattern))
    (reached : Reachable c e) (room : 5 ≤ c.maxSize) (ranged : e.macros.Ranged)
    (small : column + 4 * Text.size replacement + Line.maxText < 2 ^ 63)
    (short : Text.size pattern ≤ 2 ^ 63) : ∃ r, result = .ok r := by
  induction ends with
  | done _ => exact ⟨_, rfl⟩
  | fault next =>
    rcases (reached.inOrder room).script.sound with ⟨es, sound⟩
    rcases replaceNext_eq_error sound ranged next with ⟨m, -, far⟩
    rw [anchored.overflows_eq_false small short] at far
    contradiction
  | @more p p' e e' m steps back result found next ends ih =>
    have replaces : Replaces pattern replacement o (p, e) (p', e') := next
    rcases replaces.exists_step with ⟨m', q, there, line, edited, step⟩
    rcases findFrom_held reached.holds step.found with ⟨-, -, filled⟩
    have written : 0 < Text.size pattern := Chars.width_pos (by simpa using filled)
    have after := anchored.advance written step.admitted
    rw [← step.pass] at after
    exact ih after (replaces.reachable reached) (replaces.macros_eq ▸ ranged)

theorem Ends.replaceMany_eq (ends : Ends pattern replacement o p e steps back result) {fuel : Nat}
    (enough : steps < fuel) : replaceMany pattern replacement o fuel p e = result := by
  induction ends generalizing fuel with
  | done next =>
    cases fuel with
    | zero => contradiction
    | succ fuel =>
      rw [replaceMany, next]
      rfl
  | fault next =>
    cases fuel with
    | zero => contradiction
    | succ fuel =>
      rw [replaceMany, next]
      rfl
  | more _ next _ ih =>
    cases fuel with
    | zero => contradiction
    | succ fuel =>
      rw [replaceMany, next]
      exact ih (by omega)

/-! ### When lines are stored no longer -/

/-- Whether a text is kept up to the case of its letters, or does not compile. -/
def Mild (text : String) : Prop :=
  ∀ c, compile text = .ok c → Chars.fold c.display.toList = Chars.fold text.toList

theorem size_cut_le_size (n : Nat) (text : String) : Text.size (Text.cut n text) ≤ Text.size text := by
  rcases Chars.cut_start n text.toList with ⟨rest, whole⟩
  rw [Text.size, Text.size, ← whole, Text.cut, String.toList_ofList, Chars.width_append]
  exact Nat.le_add_right _ _

theorem Mild.size_eq {text : String} {c : Compiled} (mild : Mild text)
    (made : compile text = .ok c) : Text.size c.display = Text.size text := by
  have size : ∀ c : Char, c.toLower.utf8Size = c.utf8Size := SearchOptions.letter_size ⟨true, false⟩
  have folded := congrArg width (mild c made)
  rwa [Chars.fold, Chars.fold, Chars.width_map size, Chars.width_map size] at folded

theorem size_invalidLine_le (e : Editor) (text : String) (d : Disposition) (old : Nat) :
    Text.size (e.invalidLine text d old).text ≤ Text.size text := by
  have short := size_cut_le_size Line.maxText text
  cases d with
  | ignore | delete => exact short
  | comment =>
    dsimp only [invalidLine]
    split
    · exact Nat.le_trans (size_cut_le_size _ _) short
    · exact short

theorem Mild.size_writePlain_le {h : Handle} {prior : Line} {text : String} {outcome : Outcome}
    (mild : Mild text) (accepted : (e.writePlain h prior text).result = .ok outcome) :
    ∃ line, (e.writePlain h prior text).editor = e.setLine h line ∧
      Text.size line.text ≤ Text.size text := by
  unfold writePlain at *
  split at accepted
  next => exact ⟨_, rfl, size_invalidLine_le _ _ _ _⟩
  next c made =>
    have same := mild.size_eq made
    split at accepted
    next long =>
      rw [if_pos long]
      exact ⟨_, rfl, same ▸ size_invalidLine_le _ _ _ _⟩
    next fits =>
      rw [if_neg fits]
      split at accepted
      next => contradiction
      next => exact ⟨_, rfl, Nat.le_of_eq same⟩

theorem update_plain {h : Handle} {prior : Line} {text : String}
    (found : e.script.get? h = some prior) (plain : callsMacro text = false) :
    e.update h text = .ok (e.writePlain h prior text) := by
  unfold update
  cases e.levelsLeft <;> simp [writeWith, found, plain]

theorem Replaces.storesNoLonger (next : Replaces pattern replacement o a b)
    (mild : ∀ m ∈ a.2.findFrom pattern o a.1.resume a.1.startLine,
      ∀ line ∈ a.2.script.get? m.handle,
        Mild (Text.cut Line.maxText (splicedAt line m pattern replacement)))
    (reached : Reachable c a.2) : StoresNoLonger pattern replacement o a.1 a.2 b.2 := by
  rcases next.exists_step with ⟨m, q, there, old, edited, step⟩
  rcases step.accepted with ⟨outcome, accepted⟩
  rcases reached.exists_moveTo step.moved with ⟨h, n, moved, -⟩
  intro m' again line current plain line' laid
  cases Option.some.inj (step.found.symm.trans again)
  have same : old = line := by
    have old_eq := step.current
    rw [moved] at old_eq
    exact Option.some.inj (old_eq.symm.trans current)
  subst same
  have updated := step.updated
  rw [update_plain step.current plain] at updated
  have made := Except.ok.inj updated
  rw [← made] at accepted
  rcases (mild m step.found old current).size_writePlain_le accepted with ⟨line, written, short⟩
  have kept : b.2.script.get? m.handle = some line := by
    rw [step.editor, ← made, written]
    unfold mapScript setLine Script.setLine
    dsimp only
    rw [step.current]
    exact Links.get?_setLine step.current line
  have line_eq : line = line' := Option.some.inj (kept.symm.trans laid)
  rw [← line_eq]
  exact Nat.le_trans short (size_cut_le_size _ _)

/-- The matches that a replacement of all matches replaces come to an end, and it goes back at most
once on the way. Where it only takes matches out, that rests on lines being stored no longer than they
are put together, as they are if their texts are kept up to the case of letters or do not compile.
Where there is room for a blank line, and for the columns in signed words, it is not stopped
either. -/
theorem Reachable.replaceAll_ends (reached : Reachable c e) (pattern replacement : String)
    (o : SearchOptions) :
    (∀ a b, Relation.ReflTransGen (Replaces pattern replacement o) (.start e.script.cursor, e) a →
      Replaces pattern replacement o a b →
      (∀ m ∈ a.2.findFrom pattern o a.1.resume a.1.startLine,
        ∀ line ∈ a.2.script.get? m.handle,
          Mild (Text.cut Line.maxText (splicedAt line m pattern replacement))) →
      StoresNoLonger pattern replacement o a.1 a.2 b.2) ∧
    ((replacement = "" → NeverLonger pattern replacement o (.start e.script.cursor) e) →
      ∃ steps back result,
        Ends pattern replacement o (.start e.script.cursor) e steps back result ∧ back ≤ 1 ∧
        (∀ summary e', result = .ok (summary, e') → summary.replaced = steps) ∧
        (5 ≤ c.maxSize → e.macros.Ranged →
          e.script.cursor.column + 4 * Text.size replacement + Line.maxText < 2 ^ 63 →
          Text.size pattern ≤ 2 ^ 63 → ∃ r, result = .ok r) ∧
        (∀ fuel, steps < fuel →
          replaceMany pattern replacement o fuel (.start e.script.cursor) e = result) ∧
        (steps < replaceLimit → e.script.cursor.column < Bounds.max64 →
          e.replaceAll pattern replacement o = result)) := by
  have all : ∀ a, Relation.ReflTransGen (Replaces pattern replacement o)
      (.start e.script.cursor, e) a → Reachable c a.2 := by
    intro a run
    induction run with
    | refl => exact reached
    | tail _ next ih => exact next.reachable ih
  refine ⟨fun a b run next mild => next.storesNoLonger mild (all a run), fun short => ?_⟩
  have ended : ∃ steps back result,
      Ends pattern replacement o (.start e.script.cursor) e steps back result := by
    rcases eq_or_ne replacement "" with rfl | written
    · apply exists_ends fun a => (toLex (a.2.budget, a.2.script.links.textSize) : Nat ×ₗ Nat)
      intro a b run next
      rcases next.exists_step with ⟨m, q, there, old, edited, step⟩
      rw [Prod.Lex.toLex_lt_toLex]
      exact step.textSize_lt (all a run) (short rfl a b run next)
    · apply exists_ends (ahead replacement)
      intro a b run next
      rcases next.exists_step with ⟨m, q, there, old, edited, step⟩
      exact step.ahead_lt (all a run) written
  rcases ended with ⟨steps, back, result, ends⟩
  refine ⟨steps, back, result, ends, ends.back_le, ?_, ?_, fun _ => ends.replaceMany_eq, ?_⟩
  · intro summary e' done
    exact (ends.replaced_eq done).trans (Nat.zero_add steps)
  · intro room ranged small width
    exact ends.exists_ok (Pass.anchored_start (by omega)) reached room ranged small width
  · intro few inside
    rw [replaceAll, atMaxColumn, decide_eq_false (Nat.not_le.mpr inside)]
    exact ends.replaceMany_eq few

theorem replaceAll_ends_taking_out : ∃ (e : Editor) (steps back : Nat)
    (result : ReplaceSummary × Editor), Reachable {} e ∧
    e.script.lines.map Line.text = [": baaa", ": Aa"] ∧
    (e.replaceAll "a" "" {}).map (fun r => (r.1, r.2.script.lines.map Line.text)) =
      .ok (⟨4, none⟩, [": ba", ": "]) ∧
    NeverLonger "a" "" {} (.start e.script.cursor) e ∧
    Ends "a" "" {} (.start e.script.cursor) e steps back (.ok result) ∧ back ≤ 1 := by
  generalize whole : ((Editor.new {}).load [0xFF, 7, 106, 5, 98, 97, 97, 97, 0, 7, 5, 106, 3, 65, 97,
    0, 5, 0]).mapScript (·.setColumn 3) = e
  have reached : Reachable {} e := by
    rw [← whole]
    exact .perform (.setColumn 3) (.perform (.load _) .new rfl) rfl
  have checked : endsChecked "a" "" {} (fun p e e' => decide (StoresNoLonger "a" "" {} p e e')) 6
      (.start e.script.cursor) e = true := by
    rw [← whole]
    decide +kernel
  have short : NeverLonger "a" "" {} (.start e.script.cursor) e :=
    fun a b run next => of_decide_eq_true (check_of_endsChecked checked a b run next)
  have ranged : e.macros.Ranged := by
    rw [← whole]
    intro t mem
    cases mem
  have column : e.script.cursor.column + 4 * Text.size "" + Line.maxText < 2 ^ 63 := by
    rw [← whole]
    decide +kernel
  rcases (Reachable.replaceAll_ends reached "a" "" {}).2 fun _ => short with
    ⟨steps, back, _, ends, once, -, ok, -⟩
  rcases ok (by decide) ranged column (by decide) with ⟨result, rfl⟩
  refine ⟨e, steps, back, result, reached, ?_, ?_, short, ends, once⟩
  · rw [← whole]
    decide +kernel
  · rw [← whole]
    decide +kernel

/-- Without room for a blank line, the lines may come to be linked in a way that goes round. A
replacement of what no line has then searches on for ever. -/
theorem replaceAll_endless : ∃ e : Editor, Reachable { maxSize := 4 } e ∧
    e.script.cursor = ⟨⟨4, 0⟩, 1, 0⟩ ∧ NeverLonger "n" "m" {} (.start e.script.cursor) e ∧
    (∀ n, (e.script.links.walk n (e.script.next? e.script.cursor.handle)).length = n) ∧
    e.replaceAll "n" "m" {} = .error .endless := by
  let operations : List Operation := [.edit (.insert .top .after "q"), .clearBlock,
    .placeMark .stop, .edit (.insertAtCursor "y"), .moveCursor (-1),
    .edit (.insert ⟨1, 0⟩ .before "z"), .moveCursor 1, .edit (.insert ⟨3, 0⟩ .after "w"),
    .placeMark .stop, .clearBlock]
  have run : (operations.foldlM Editor.perform (.new { maxSize := 4 })).map
      (fun e => (e.script.cursor, e.script.links.endless (e.script.next? e.script.cursor.handle),
        endsChecked "n" "m" {} (fun p e e' => decide (StoresNoLonger "n" "m" {} p e e')) 1
          (.start e.script.cursor) e,
        (e.replaceAll "n" "m" {}).map fun _ => ())) =
      .ok (⟨⟨4, 0⟩, 1, 0⟩, true, true, .error .endless) := by
    decide +kernel
  rcases map_eq_ok.mp run with ⟨e, done, shown⟩
  simp only [Prod.mk.injEq] at shown
  rcases shown with ⟨cursor, round, checked, stopped⟩
  have short : NeverLonger "n" "m" {} (.start e.script.cursor) e :=
    fun a b run next => of_decide_eq_true (check_of_endsChecked checked a b run next)
  exact ⟨e, Reachable.new.performAll done, cursor, short, Links.endless_iff.mp round,
    map_eq_error.mp stopped⟩

end Editor

end RobotScript
