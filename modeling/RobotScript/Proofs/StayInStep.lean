import RobotScript.Proofs.Guards
import RobotScript.Proofs.Holds
/-!
Text and record of every line fit together in every editor that comes of a new one. While a text
is written into a line, that line alone may be out of step: it is still as it was before, or a new
one that nothing has been written into.
-/
namespace RobotScript

/-- What the parts of a line say about each other. -/
structure Line.Faithful (l : Line) : Prop where
  /-- A record reads back as the text and the kinds of the arguments, and all of it is read. -/
  valid : l.validity = .valid →
    l.size = l.bytecode.length ∧ decode l.bytecode = .ok ⟨l.text, l.bytecode.length, l.args⟩
  invalid : ∀ d, l.validity = .invalid d →
    l.bytecode = [] ∧ l.args = [] ∧ l.text ≠ "" ∧ Text.size l.text ≤ 240
  comment : l.validity = .invalid .comment →
    Text.size l.text ≤ 236 ∧ l.size = Text.size l.text + 5
  leftOut : l.validity = .invalid .ignore ∨ l.validity = .invalid .delete → l.size = 0
  saved : l.programBytes.length = l.size
  blank : l.text = "" ↔ l.validity = .valid ∧ l.bytecode = [1, 47, 1]

theorem Line.InStep.isFaithful {l : Line} (h : l.InStep) : l.Faithful where
  valid := by
    intro valid
    cases h with
    | compiled read => exact ⟨rfl, read⟩
    | invalid => cases valid
  invalid := by
    intro d standing
    cases h with
    | compiled => cases standing
    | @invalid text prior written short =>
      exact ⟨rfl, rfl, written, Nat.le_trans short (longest_le prior)⟩
  comment := by
    intro comment
    cases h with
    | compiled => cases comment
    | invalid written short =>
      cases comment
      exact ⟨short, rfl⟩
  leftOut := by
    intro leftOut
    cases h with
    | compiled => rcases leftOut with leftOut | leftOut <;> cases leftOut
    | invalid => rcases leftOut with leftOut | leftOut <;> cases leftOut <;> rfl
  saved := h.length_programBytes
  blank := h.text_eq_empty_iff

namespace Editor

/-- Whether the parts of an entry's line fit together, unless it is the line under a handle, which
may be as it was before. -/
def InStepOr (h : Handle) (prior : Line) (x : Entry) : Prop :=
  x.line.InStep ∨ x.handle = h ∧ x.line = prior

def InStep (e : Editor) : Prop := e.script.Holds (·.line.InStep)

variable {e : Editor} {h : Handle} {text : String}

theorem InStepOr.of_ne {prior : Line} {x : Entry} (either : InStepOr h prior x)
    (differs : x.handle ≠ h) : x.line.InStep :=
  either.resolve_right fun same => differs same.1

theorem inStep_setLine (others : e.script.Holds fun x => x.handle ≠ h → x.line.InStep) {line : Line}
    (written : line.InStep) : (e.setLine h line).InStep :=
  Script.Holds.setLine others written

theorem closed_inStep : Script.Closed (Script.Holds (·.line.InStep)) :=
  Script.closed_holds fun _ => Line.inStep_blank

def Writer.InStep (write : Writer) : Prop :=
  ∀ ⦃e : Editor⦄ ⦃h : Handle⦄ ⦃prior : Line⦄ ⦃text : String⦄ ⦃edited : Edited Outcome⦄,
    e.script.Holds (InStepOr h prior) → write e h text = .ok edited →
    match edited.result with
    | .ok _ => edited.editor.InStep
    | .error _ => edited.editor.script.Holds (InStepOr h prior)

section Expansion

variable {write : Writer} (writes : Writer.InStep write)

include writes

theorem inStep_insertWith {anchor : Handle} {anchorNumber : Nat} {relation : Relation}
    {edited : Edited (Handle × Outcome)} (before : e.InStep)
    (done : insertWith write e anchor anchorNumber relation text = .ok edited) :
    edited.editor.InStep := by
  have put := Script.Holds.insertLine before anchor (some anchorNumber) relation .empty
  -- The new line is empty, which is not in step, until something is written into it.
  have pending : ∀ {h : Handle} {position : Nat} {script : Script},
      e.script.insertLine anchor (some anchorNumber) relation .empty = (.ok (h, position), script) →
      script.Holds (InStepOr h .empty) := by
    intro h position script inserted
    rw [inserted] at put
    exact put.mono fun x known => known.symm.imp_right fun same => by simp [same]
  cases insertCase done with
  | nowhere nowhere =>
    rw [nowhere] at put
    exact put
  | @written _ _ script _ _ inserted wrote =>
    exact writes (e := { e with script }) (pending inserted) wrote
  | @refused h position script _ _ inserted wrote =>
    have after := writes (e := { e with script }) (pending inserted) wrote
    exact Script.Holds.unlink (after.mono fun _ => InStepOr.of_ne) position

theorem inStep_emitRest {number countBefore : Nat} {boundary : Option Handle}
    {texts : List String} {edited : Edited Unit} (before : e.InStep)
    (done : emitRest write number countBefore boundary e texts = .ok edited) :
    edited.editor.InStep := by
  induction texts generalizing e with
  | nil =>
    cases done
    exact before
  | cons text texts ih =>
    cases restCase done with
    | nowhere => exact before
    | refused _ insert => exact inStep_insertWith writes before insert
    | inserted _ insert rest => exact ih (inStep_insertWith writes before insert) rest

theorem inStep_emit {number : Nat} {boundary : Option Handle} {lines : List String} {prior : Line}
    {edited : Edited Nat} (before : e.script.Holds (InStepOr h prior))
    (done : emit write e h number boundary lines = .ok edited) :
    match edited.result with
    | .ok _ => edited.editor.InStep
    | .error _ => edited.editor.script.Holds (InStepOr h prior) := by
  cases emitCase done with
  | refused wrote => exact writes before wrote
  | written wrote emitted =>
    have kept := inStep_emitRest writes (writes before wrote) emitted
    dsimp only
    split
    · exact kept
    · exact kept.mono fun _ => .inl

omit writes in
theorem holds_discardBetween {P : Entry → Prop} {number : Nat} {boundary : Option Handle}
    {left : Editor} (before : e.script.Holds P)
    (discarded : e.discardBetween h number boundary = .ok left) : left.script.Holds P := by
  unfold discardBetween at discarded
  split at discarded
  · contradiction
  cases discarded
  dsimp only
  generalize handlesBetween e.script h boundary = hs
  generalize e.script = s at before ⊢
  induction hs generalizing s with
  | nil => exact before
  | cons x hs ih => exact ih _ (Script.Holds.unlink (before.mono fun _ known _ => known) _)

theorem inStep_expandTemplate {old prior : Line} {number : Nat} {t : Macro.Template}
    {args : List Macro.Argument} {edited : Edited Outcome}
    (before : e.script.Holds (InStepOr h prior)) (known : InStepOr h prior ⟨h, old⟩)
    (done : expandTemplate write e h old number t args = .ok edited) :
    match edited.result with
    | .ok _ => edited.editor.InStep
    | .error _ => edited.editor.script.Holds (InStepOr h prior) := by
  cases expandCase done with
  | expanded _ emitted => exact inStep_emit writes (e := e.enter) before emitted
  | @refused _ _ after _ _ emitted discarded =>
    have left := inStep_emit writes (e := e.enter) before emitted
    have left := holds_discardBetween (e := after.leave) left discarded
    exact Script.Holds.setLine (left.mono fun _ known _ => known) known

end Expansion

theorem inStep_writeWith (levels : Nat) : Writer.InStep (writeWith levels) := by
  -- The lines of a macro are written one level further down.
  induction levels using Nat.strongRecOn with
  | ind levels deeper =>
    intro e h prior text edited before done
    rcases writeWith_cases done with
      ⟨err, rfl⟩ | ⟨_, outcome, line, -, fits, -, rfl⟩ | ⟨below, old, _, _, rfl, found, -, expanded⟩
    · exact before
    · exact inStep_setLine (before.mono fun _ => InStepOr.of_ne) fits
    · exact inStep_expandTemplate (deeper below (Nat.lt_succ_self below)) before
        (before.of_get? found) expanded

theorem inStep_update {edited : Edited Outcome} (before : e.InStep)
    (done : e.update h text = .ok edited) : edited.editor.InStep := by
  cases found : e.script.get? h with
  | none =>
    unfold update writeWith at done
    rw [found] at done
    cases done
    exact before
  | some prior =>
    have fits : prior.InStep := before.of_get? found
    have known : e.script.Holds (InStepOr h prior) := before.mono fun _ => .inl
    have after := inStep_writeWith e.levelsLeft known done
    split at after
    · exact after
    · refine after.mono fun x either => either.elim id fun same => ?_
      rw [same.2]
      exact fits

theorem inStep_insertNumbered {anchor : Handle} {anchorNumber : Nat} {relation : Relation}
    {edited : Edited (Handle × Outcome)} (before : e.InStep)
    (done : e.insertNumbered anchor anchorNumber relation text = .ok edited) :
    edited.editor.InStep :=
  inStep_insertWith (inStep_writeWith _) before done

/-- No edit takes a line out of step, whether it is refused or not. -/
theorem inStep_changes (before : e.InStep) : Changes e fun edited => edited.editor.InStep where
  refused := fun _ => before
  map := fun _ kept => kept
  setColumn := fun _ kept _ => kept.congr rfl rfl rfl
  update := inStep_update before
  insertNumbered := fun _ done => inStep_insertNumbered before done
  setDisposition := by
    intro h d
    rcases setDisposition_cases e h d with ⟨err, same⟩ | same | ⟨old, line, found, fits, -, same⟩
    · rw [same]
      exact before
    · rw [same]
      exact before
    · rw [same]
      exact inStep_setLine (before.mono fun _ known _ => known) (fits (before.of_get? found))
  insertBlank := by
    intro anchor relation result script inserted
    exact closed_inStep.insertBlankLine before inserted

theorem inStep_load (e : Editor) (program : Bytes) : (e.load program).InStep := by
  have read := Script.holds_ofLines (P := (·.line.InStep)) e.config.maxSize
    ((splitRecords (programBody program)).1.map lineOfRecord) (by
      intro _ line mem
      obtain ⟨r, split, rfl⟩ := List.mem_map.mp mem
      exact inStep_lineOfRecord split)
  unfold load InStep
  dsimp only
  split
  · exact read.setCursor _ _
  · exact closed_inStep.seed read

theorem inStep_new (c : Config) : (Editor.new c).InStep :=
  closed_inStep.seed (Script.holds_ofLines c.maxSize [] (by simp))

theorem stable_inStep : Stable InStep where
  congr := by
    intro e e' before script _
    rw [InStep, script]
    exact before
  attempt := fun before _ done => (inStep_changes before).attempt done
  insertBelow := fun before done _ => ((inStep_changes before).insert done).setCursor _ _
  load := fun _ program => inStep_load _ program
  delete := fun before removed => closed_inStep.delete before removed
  moveCursor := fun before moved => closed_inStep.moveCursor before moved
  setColumn := fun before _ => before.congr rfl rfl rfl
  placeMark := fun before _ => before.congr rfl rfl rfl
  unmark := fun before => before.congr rfl rfl rfl
  clearBlock := fun before cleared => closed_inStep.clearBlock before cleared

theorem Reachable.inStep_of_mem_lines {c : Config} {line : Line} (reached : Reachable c e)
    (mem : line ∈ e.script.lines) : line.InStep := by
  obtain ⟨x, listed, rfl⟩ := List.mem_map.mp mem
  exact (stable_inStep.reachable (inStep_new c) reached).all x (Links.mem_held_of_mem_below listed)

/-- Text and record stay in step: so in every editor that comes of a new one, also in lines that
no way from the top leads to. -/
theorem Reachable.faithful {c : Config} {line : Line} (reached : Reachable c e)
    (there : line ∈ e.script.lines ∨ ∃ h, e.script.get? h = some line) : line.Faithful := by
  rcases there with mem | ⟨h, found⟩
  · exact (reached.inStep_of_mem_lines mem).isFaithful
  · have all := stable_inStep.reachable (inStep_new c) reached
    exact (all.of_get? found).isFaithful

theorem faithful_wait : ∃ e, Reachable {} e ∧
    e.script.get? ⟨1, 0⟩ = some (.compiled "WAIT 3" [4, 2, 0, 3, 0, 4] [.number]) ∧
    (Line.compiled "WAIT 3" [4, 2, 0, 3, 0, 4] [.number]).Faithful := by
  have written : ((Editor.new {}).perform (.edit (.update ⟨1, 0⟩ "wait 3"))).map
      (·.script.get? ⟨1, 0⟩) = .ok (some (.compiled "WAIT 3" [4, 2, 0, 3, 0, 4] [.number])) := by
    decide +kernel
  rcases map_eq_ok.mp written with ⟨e, done, found⟩
  have reached : Reachable {} e := .perform _ .new done
  exact ⟨e, reached, found, Reachable.faithful reached (.inr ⟨_, found⟩)⟩

end Editor

end RobotScript
