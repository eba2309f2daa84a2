import RobotScript.Proofs.Loading
import RobotScript.Proofs.Sessions
/-!
What closing a session stores and what it answers. Each line of the program is either a record of
what is stored, or counted as dropped, or the blank last line.
-/
namespace RobotScript

namespace Line

def isDropped (l : Line) : Bool :=
  l.validity == .invalid .ignore || l.validity == .invalid .delete

theorem isSaved_eq_not_isDropped (l : Line) : l.isSaved = !l.isDropped := by
  unfold isSaved isDropped
  cases l.validity with
  | valid => rfl
  | invalid d => cases d <;> rfl

theorem countP_isDropped_add_isSaved (ls : List Line) :
    ls.countP isDropped + (ls.filter isSaved).length = ls.length := by
  rw [ls.length_eq_countP_add_countP isDropped, ← List.countP_eq_length_filter]
  congr 1
  apply List.countP_congr
  simp [isSaved_eq_not_isDropped]

theorem countP_isDropped (ls : List Line) :
    ls.countP isDropped =
      ls.countP (·.validity == .invalid .ignore) + ls.countP (·.validity == .invalid .delete) := by
  induction ls with
  | nil => rfl
  | cons l ls ih =>
    simp only [List.countP_cons, ih]
    unfold isDropped
    cases l.validity with
    | valid => rfl
    | invalid d => cases d <;> simp <;> omega

end Line

namespace Script

variable {s : Script}

theorem kept_append (s : Script) :
    ∃ blank : List Line, s.kept ++ blank = s.lines ∧ (∀ l ∈ blank, l.isBlank = true) ∧
      blank.length = if s.lines.getLast?.any Line.isBlank then 1 else 0 := by
  unfold kept
  split
  next blank =>
    rcases (Option.any_eq_true _ _).mp blank with ⟨l, last, empty⟩
    rcases List.getLast?_eq_some_iff.mp last with ⟨init, split⟩
    exact ⟨[l], by rw [split, List.dropLast_concat], by simpa using empty, rfl⟩
  next => exact ⟨[], List.append_nil _, by simp, rfl⟩

theorem countP_isDropped_kept (fits : ∀ l ∈ s.lines, l.InStep) :
    s.kept.countP Line.isDropped = s.lines.countP Line.isDropped := by
  rcases s.kept_append with ⟨blank, split, empty, -⟩
  have none : blank.countP Line.isDropped = 0 := by
    apply List.countP_eq_zero.mpr
    intro l mem
    have text : l.text = "" := by simpa [Line.isBlank] using empty l mem
    have fit := fits l (split ▸ List.mem_append_right _ mem)
    rw [Line.isDropped, (fit.text_eq_empty_iff.mp text).1]
    decide
  conv_rhs => rw [← split, List.countP_append, none, Nat.add_zero]

end Script

theorem exists_splitRecords {ls : List Line} (fits : ∀ l ∈ ls, l.InStep)
    (saved : ∀ l ∈ ls, l.isSaved = true) :
    ∃ records,
      splitRecords (ls.flatMap Line.programBytes ++ [programEpilogue]) =
        (records, [programEpilogue]) ∧
      records.map Editor.lineOfRecord = ls.map Line.reloaded ∧
      records.map (·.bytes) = ls.map Line.programBytes := by
  have lines := splitRecords_flatMap fits saved [programEpilogue]
  rw [splitRecords_epilogue, List.map_nil, List.append_nil] at lines
  have bytes := congrArg (List.map Line.bytecode) lines
  rw [List.map_map, List.map_map] at bytes
  have same : (splitRecords (ls.flatMap Line.programBytes ++ [programEpilogue])).1.map (·.bytes) =
      ls.map Line.programBytes :=
    bytes.trans (List.map_congr_left fun l mem => Line.bytecode_reloaded (saved l mem))
  refine ⟨_, Prod.ext rfl ?_, lines, same⟩
  have whole := joinRecords_splitRecords (ls.flatMap Line.programBytes ++ [programEpilogue])
  rw [joinRecords, List.flatMap_def, same, ← List.flatMap_def] at whole
  exact List.append_cancel_left whole

namespace Script

variable {s : Script}

theorem exists_splitRecords_flatten (fits : ∀ l ∈ s.lines, l.InStep) :
    ∃ records, splitRecords (Editor.programBody s.flatten) = (records, [programEpilogue]) ∧
      records.map (·.bytes) = s.saved.map Line.programBytes := by
  have among : ∀ l ∈ s.saved, l ∈ s.lines := fun l mem => by
    rcases s.kept_append with ⟨blank, split, -⟩
    exact split ▸ List.mem_append_left _ (List.mem_filter.mp mem).1
  have body : Editor.programBody s.flatten =
      s.saved.flatMap Line.programBytes ++ [programEpilogue] := by
    rw [flatten_eq, Editor.programBody, if_pos rfl, saved, flatMap_filter_isSaved]
  rcases exists_splitRecords (fun l mem => fits l (among l mem))
    (fun l mem => (List.mem_filter.mp mem).2) with ⟨records, split, -, bytes⟩
  exact ⟨records, body ▸ split, bytes⟩

end Script

namespace Session

variable {c : Config} {s : Session} {force : Bool}

structure Closes (s : Session) (force : Bool) (summary : CloseSummary) (records : List Record) :
    Prop where
  result : (s.close force).result = .ok summary
  starts : (s.close force).session.storage.program.head? = some programPrologue
  reads : splitRecords (Editor.programBody (s.close force).session.storage.program) =
    (records, [programEpilogue])
  bytes : records.map (·.bytes) = s.editor.script.saved.map Line.programBytes
  size : summary.programSize = (s.close force).session.storage.program.length
  dropped : summary.droppedLines =
    s.editor.script.lines.countP (·.validity == .invalid .ignore) +
      s.editor.script.lines.countP (·.validity == .invalid .delete)
  decided : force = false → s.editor.script.lines.countP (·.validity == .invalid .ignore) = 0
  balance : summary.droppedLines + records.length +
    (if s.editor.script.lines.getLast?.any Line.isBlank then 1 else 0) = s.editor.script.lineCount

theorem close_of_unresolved (waiting : 0 < s.editor.unresolvedCount) :
    (s.close false).result = .error (.unresolvedLines s.editor.unresolvedCount) ∧
      (s.close false).session.storage = s.storage := by
  have refused : (decide (s.editor.unresolvedCount > 0) && !false) = true := by simpa using waiting
  unfold close
  rw [if_pos refused]
  exact ⟨rfl, rfl⟩

theorem close_of_works (works : s.storage.storeError = none)
    (decided : force = false → s.editor.unresolvedCount = 0) :
    (s.close force).result = .ok ⟨s.editor.script.flatten.length, s.droppedCount⟩ ∧
      (s.close force).session.storage =
        { s.storage with
          program := s.editor.script.flatten
          stores := s.storage.stores + 1 } := by
  have accepted : ¬(decide (s.editor.unresolvedCount > 0) && !force) = true := by
    cases force with
    | false => simp [decided rfl]
    | true => simp
  have stored : s.storage.store s.editor.script.flatten = .ok
      { s.storage with
        program := s.editor.script.flatten
        stores := s.storage.stores + 1 } := by
    simp only [Storage.store, works]
  unfold close
  simp only [if_neg accepted, stored, and_self]

/-- Closing is refused exactly while lines wait for a decision and it is not forced, and then leaves
the storage alone. Otherwise the accounts of what is stored balance. -/
theorem Reachable.close_balances (reached : Reachable c s) (room : 5 ≤ c.maxSize)
    (works : s.storage.storeError = none) (force : Bool) :
    if force = false ∧ 0 < s.editor.script.lines.countP (·.validity == .invalid .ignore) then
      (s.close force).result = .error
        (.unresolvedLines (s.editor.script.lines.countP (·.validity == .invalid .ignore))) ∧
      (s.close force).session.storage = s.storage
    else ∃ summary records, s.Closes force summary records := by
  have fits : ∀ l ∈ s.editor.script.lines, l.InStep :=
    fun _ mem => reached.editor.inStep_of_mem_lines mem
  rcases (reached.editor.inOrder room).script.sound with ⟨es, sound⟩
  split
  next waiting =>
    rcases waiting with ⟨rfl, waiting⟩
    exact close_of_unresolved waiting
  next accepted =>
    have decided : force = false → s.editor.unresolvedCount = 0 := fun unforced =>
      Nat.eq_zero_of_not_pos fun waiting => accepted ⟨unforced, waiting⟩
    rcases close_of_works works decided with ⟨result, storage⟩
    rcases Script.exists_splitRecords_flatten fits with ⟨records, split, bytes⟩
    refine ⟨_, records, result, ?_, ?_, bytes, ?_, Line.countP_isDropped _, decided, ?_⟩
    · rw [storage, Script.flatten_eq]
      rfl
    · rw [storage]
      exact split
    · rw [storage]
    · rcases s.editor.script.kept_append with ⟨blank, whole, -, length⟩
      have count : s.editor.script.lineCount = s.editor.script.lines.length := by
        rw [sound.lineCount, sound.lines, List.length_map]
      have number : records.length = s.editor.script.saved.length := by
        simpa using congrArg List.length bytes
      have total := congrArg List.length whole
      rw [List.length_append, length] at total
      have apart : s.droppedCount + s.editor.script.saved.length = s.editor.script.kept.length := by
        have dropped : s.droppedCount = s.editor.script.lines.countP Line.isDropped := rfl
        rw [dropped, ← Script.countP_isDropped_kept fits, Script.saved]
        exact Line.countP_isDropped_add_isSaved _
      rw [count, number, apart, total]

theorem close_balances_forced : ∃ s, Reachable {} s ∧ s.storage.storeError = none ∧
    s.editor.script.lines = [.invalid "zz" .ignore, .blank] ∧
    (s.close false).result = .error (.unresolvedLines 1) ∧
    ∃ summary records, s.Closes true summary records ∧ summary.droppedLines = 1 ∧
      records = [] := by
  have started : start ⟨[], 0, none, none⟩ .unavailable .initial [] =
      .ok ⟨.new {}, ⟨[], 0, none, none⟩, .unavailable, .initial, [], "", []⟩ := rfl
  have typed : ((Editor.new {}).perform (.edit (.insertAtCursor "zz"))).map (·.script.lines) =
      .ok [.invalid "zz" .ignore, .blank] := by
    decide +kernel
  rcases map_eq_ok.mp typed with ⟨e, done, lines⟩
  have reached : Reachable {} ⟨e, ⟨[], 0, none, none⟩, .unavailable, .initial, [], "", []⟩ :=
    .serve (.edit (.edit (.insertAtCursor "zz"))) (.start _ _ _ _ rfl started)
      (serve_edit done)
  have refused := reached.close_balances (by decide) rfl false
  have forced := reached.close_balances (by decide) rfl true
  simp only [lines] at refused forced
  rcases forced with ⟨summary, records, closes⟩
  refine ⟨_, reached, rfl, lines, refused.1, summary, records, closes, ?_, ?_⟩
  · have dropped := closes.dropped
    rw [lines] at dropped
    exact dropped
  · have bytes := closes.bytes
    have none : e.script.saved = [] := by
      rw [Script.saved, Script.kept, lines]
      rfl
    rw [none] at bytes
    exact List.map_eq_nil_iff.mp bytes

end Session

end RobotScript
