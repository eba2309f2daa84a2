import RobotScript.Proofs.Closed
import RobotScript.Proofs.Guards
import RobotScript.Proofs.InStep
import RobotScript.Proofs.Run
/-!
Edits are made of a few more changes than moves and cuts: a line is put in empty, a line that is let
in takes the place of another, and one is written as it was before. What those keep as well, every
operation keeps that does not load a program.
-/
namespace RobotScript

structure Script.Editable (P : Script → Prop) : Prop extends Script.Closed P where
  insertEmpty {s : Script} : P s → ∀ anchor number? relation,
    P (s.insertLine anchor number? relation .empty).2
  setLine {s : Script} {h : Handle} {old line : Line} : P s → s.get? h = some old →
    s.Admits old line → P (s.setLine h line)
  restore {s s' : Script} {h : Handle} {saved : Line} : P s → s.get? h = some saved → P s' →
    P (s'.setLine h saved)

namespace Editor

def Writer.Keeps (write : Writer) (P : Script → Prop) : Prop :=
  ∀ ⦃e : Editor⦄ ⦃h : Handle⦄ ⦃text : String⦄ ⦃edited : Edited Outcome⦄,
    P e.script → write e h text = .ok edited → P edited.editor.script

variable {P : Script → Prop} (editable : Script.Editable P) {e : Editor} {h : Handle}

include editable

section Expansion

variable {write : Writer} (keeps : write.Keeps P)

include keeps

theorem insertWith_keeps {anchor : Handle} {number : Nat} {relation : Relation} {text : String}
    {edited : Edited (Handle × Outcome)} (inv : P e.script)
    (done : insertWith write e anchor number relation text = .ok edited) :
    P edited.editor.script := by
  have put := editable.insertEmpty inv anchor (some number) relation
  cases insertCase done with
  | nowhere nowhere =>
    rw [nowhere] at put
    exact put
  | @written _ _ script _ _ inserted wrote =>
    rw [inserted] at put
    exact keeps (e := { e with script }) put wrote
  | @refused h position script _ _ inserted wrote =>
    rw [inserted] at put
    have after := keeps (e := { e with script }) put wrote
    exact editable.unlink after h position

theorem emitRest_keeps {number countBefore : Nat} {boundary : Option Handle}
    {texts : List String} {edited : Edited Unit} (inv : P e.script)
    (done : emitRest write number countBefore boundary e texts = .ok edited) :
    P edited.editor.script := by
  induction texts generalizing e with
  | nil =>
    cases done
    exact inv
  | cons text texts ih =>
    cases restCase done with
    | nowhere => exact inv
    | refused _ insert => exact insertWith_keeps editable keeps inv insert
    | inserted _ insert rest => exact ih (insertWith_keeps editable keeps inv insert) rest

theorem emit_keeps {number : Nat} {boundary : Option Handle} {lines : List String}
    {edited : Edited Nat} (inv : P e.script)
    (done : emit write e h number boundary lines = .ok edited) : P edited.editor.script := by
  cases emitCase done with
  | refused wrote => exact keeps inv wrote
  | written wrote emitted => exact emitRest_keeps editable keeps (keeps inv wrote) emitted

omit keeps in
theorem discardBetween_keeps {number : Nat} {boundary : Option Handle} {left : Editor}
    (inv : P e.script) (discarded : e.discardBetween h number boundary = .ok left) :
    P left.script := by
  unfold discardBetween at discarded
  split at discarded
  · contradiction
  cases discarded
  dsimp only
  generalize handlesBetween e.script h boundary = hs
  generalize e.script = s at inv ⊢
  induction hs generalizing s with
  | nil => exact inv
  | cons x hs ih => exact ih _ (editable.unlink inv x (number + 1))

theorem expandTemplate_keeps {old : Line} {number : Nat} {t : Macro.Template}
    {args : List Macro.Argument} {edited : Edited Outcome} (inv : P e.script)
    (found : e.script.get? h = some old)
    (done : expandTemplate write e h old number t args = .ok edited) :
    P edited.editor.script := by
  cases expandCase done with
  | expanded _ emitted => exact emit_keeps editable keeps (e := e.enter) inv emitted
  | @refused _ _ after _ _ emitted discarded =>
    have left := emit_keeps editable keeps (e := e.enter) inv emitted
    exact editable.restore inv found
      (discardBetween_keeps editable (e := after.leave) left discarded)

end Expansion

theorem writeWith_keeps (levels : Nat) : (writeWith levels).Keeps P := by
  -- The lines of a macro are written one level further down.
  induction levels using Nat.strongRecOn with
  | ind levels deeper =>
    intro e h text edited inv done
    rcases writeWith_cases done with
      ⟨err, rfl⟩ | ⟨_, _, line, found, -, admitted, rfl⟩ | ⟨below, _, _, _, rfl, found, -, expanded⟩
    · exact inv
    · exact editable.setLine inv found admitted
    · exact expandTemplate_keeps editable (deeper below (Nat.lt_succ_self below)) inv found expanded

theorem changes_keep (inv : P e.script) : Changes e fun edited => P edited.editor.script where
  refused := fun _ => inv
  map := fun _ kept => kept
  setColumn := fun column kept _ => editable.setColumn kept column
  update := fun done => writeWith_keeps editable _ inv done
  insertNumbered := fun _ done => insertWith_keeps editable (writeWith_keeps editable _) inv done
  setDisposition := by
    intro h d
    rcases setDisposition_cases e h d with
      ⟨err, same⟩ | same | ⟨old, line, found, -, admitted, same⟩
    · rw [same]
      exact inv
    · rw [same]
      exact inv
    · rw [same]
      exact editable.setLine inv found admitted
  insertBlank := by
    intro anchor relation result script inserted
    exact editable.insertBlankLine inv inserted

/-- Every operation that does not load a program is made of those changes. -/
theorem steady_keeps : Steady fun e => P e.script where
  congr := by
    intro e e' inv script _
    rwa [script]
  attempt := fun inv _ done => (changes_keep editable inv).attempt done
  insertBelow := fun inv done _ => editable.setCursor ((changes_keep editable inv).insert done) _ _
  delete := fun inv removed => editable.delete inv removed
  moveCursor := fun inv moved => editable.moveCursor inv moved
  setColumn := fun inv column => editable.setColumn inv column
  placeMark := fun inv endpoint => editable.placeMark inv endpoint
  unmark := fun inv => editable.unmark inv
  clearBlock := fun inv cleared => editable.clearBlock inv cleared

end Editor

end RobotScript
