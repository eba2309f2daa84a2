import RobotScript.Editor.Operation
import RobotScript.Proofs.Outcomes
/-!
Edits are made of a few changes, and operations of edits and moves. What holds of each of those
changes holds of every edit, and a property of editors that each of them keeps holds of all editors
that come of a new one.
-/
namespace RobotScript

def EditCommand.isQuiet : EditCommand → Bool
  | .deleteLine | .markBegin | .markEnd | .unmark | .cutBlock | .clearBlock => false
  | _ => true

def Operation.isQuiet : Operation → Bool
  | .command inner => inner.isQuiet
  | .load _ | .delete .. | .placeMark _ | .unmark | .clearBlock | .cutBlock => false
  | _ => true

namespace Editor

theorem insert_cases {e : Editor} {anchor : Handle} {relation : Relation} {text : String}
    {edited : Edited Handle} (done : e.insert anchor relation text = .ok edited) :
    e.script.lineNumber? anchor = none ∧ edited = ⟨.error .lineNotFound, e⟩ ∨
    ∃ number inserted, e.script.lineNumber? anchor = some number ∧
      e.insertNumbered anchor number relation text = .ok inserted ∧
      edited = ⟨inserted.result.map (·.1), inserted.editor⟩ := by
  unfold Editor.insert at done
  obtain ⟨number?, looked, done⟩ := bind_eq_ok.mp done
  have numbered := Script.lineNumber?_of_numberOf looked
  cases number? with
  | none =>
    cases done
    exact .inl ⟨numbered, rfl⟩
  | some number =>
    obtain ⟨inserted, insert, same⟩ := bind_eq_ok.mp done
    cases same
    exact .inr ⟨number, inserted, numbered, insert, rfl⟩

structure Changes (e : Editor) (R : ∀ {α : Type}, Edited α → Prop) : Prop where
  refused {α : Type} (err : EditError) : R (⟨.error err, e⟩ : Edited α)
  map {α β : Type} {edited : Edited α} (f : α → β) :
    R edited → R ⟨edited.result.map f, edited.editor⟩
  setColumn {edited : Edited Outcome} {outcome : Outcome} (column : Nat) :
    R edited → edited.result = .ok outcome →
    R { edited with
      editor := { edited.editor with script := edited.editor.script.setColumn column } }
  update {h : Handle} {text : String} {edited : Edited Outcome} :
    e.update h text = .ok edited → R edited
  insertNumbered {anchor : Handle} {number : Nat} {relation : Relation} {text : String}
    {edited : Edited (Handle × Outcome)} :
    e.script.lineNumber? anchor = some number ∨
      anchor = e.script.cursor.handle ∧ number = e.script.cursor.line →
    e.insertNumbered anchor number relation text = .ok edited → R edited
  setDisposition (h : Handle) (d : Disposition) : R (e.setDisposition h d)
  insertBlank {anchor : Handle} {relation : Relation} {result : Except EditError Handle}
    {script : Script} :
    e.script.insertBlank anchor relation = .ok (result, script) → R ⟨result, { e with script }⟩

namespace Changes

variable {e : Editor} {R : ∀ {α : Type}, Edited α → Prop} (changes : Changes e R)

include changes

theorem insert {anchor : Handle} {relation : Relation} {text : String} {edited : Edited Handle}
    (done : e.insert anchor relation text = .ok edited) : R edited := by
  rcases insert_cases done with ⟨-, rfl⟩ | ⟨number, inserted, numbered, insert, rfl⟩
  · exact changes.refused _
  · exact changes.map _ (changes.insertNumbered (.inl numbered) insert)

theorem runMacro {invocation : String} {edited : Edited Outcome}
    (done : e.runMacro invocation = .ok edited) : R edited := by
  rcases bind_eq_ok.mp done with ⟨inserted, insert, same⟩
  cases same
  exact changes.map _ (changes.insertNumbered (.inr ⟨rfl, rfl⟩) insert)

theorem typeText {typed : String} {edited : Edited Outcome}
    (done : e.typeText typed = .ok edited) : R edited := by
  unfold Editor.typeText at done
  split at done
  · cases done
    exact changes.refused _
  · rcases bind_eq_ok.mp done with ⟨written, update, rest⟩
    split at rest
    next =>
      cases rest
      exact changes.update update
    next accepted =>
      cases rest
      exact changes.setColumn _ (changes.update update) accepted

theorem quickMacro {slot : Nat} {fallback : String} {edited : Edited Outcome}
    (done : e.quickMacro slot fallback = .ok edited) : R edited := by
  unfold Editor.quickMacro at done
  dsimp only at done
  split at done
  · exact changes.runMacro done
  · exact changes.typeText done

theorem attempt {edit : Edit} {edited : Edited Unit} (done : e.attempt edit = .ok edited) :
    R edited := by
  cases edit with
  | update h text =>
    rcases map_eq_ok.mp done with ⟨written, update, rfl⟩
    exact changes.map _ (changes.update update)
  | insert anchor relation text =>
    rcases map_eq_ok.mp done with ⟨inserted, insert, rfl⟩
    exact changes.map _ (changes.insert insert)
  | insertAtCursor text =>
    rcases map_eq_ok.mp done with ⟨inserted, insert, rfl⟩
    exact changes.map _ (changes.insert insert)
  | runMacro invocation =>
    rcases map_eq_ok.mp done with ⟨expanded, run, rfl⟩
    exact changes.map _ (changes.runMacro run)
  | quickMacro slot fallback =>
    rcases map_eq_ok.mp done with ⟨expanded, run, rfl⟩
    exact changes.map _ (changes.quickMacro run)
  | setDisposition h d =>
    cases done
    exact changes.map _ (changes.setDisposition h d)
  | insertBlank anchor relation =>
    rcases bind_eq_ok.mp done with ⟨⟨result, script⟩, inserted, same⟩
    cases same
    exact changes.map _ (changes.insertBlank inserted)

end Changes

/-- Whether a property of editors, which only looks at the script and the settings, is kept by each
single change that takes out no line and sets no mark. -/
structure Quiet (Inv : Editor → Prop) : Prop where
  congr {e e' : Editor} : Inv e → e'.script = e.script → e'.config = e.config → Inv e'
  attempt {e : Editor} {edited : Edited Unit} :
    Inv e → ∀ edit, e.attempt edit = .ok edited → Inv edited.editor
  /-- Putting in a line below the cursor moves the cursor there. -/
  insertBelow {e : Editor} {text : String} {edited : Edited Handle} {h : Handle} :
    Inv e → e.insert e.script.cursor.handle .after text = .ok edited → edited.result = .ok h →
    Inv (edited.editor.mapScript (·.setCursor h (edited.editor.script.cursor.line + 1)))
  moveCursor {e : Editor} {count : Int} {script : Script} :
    Inv e → e.script.moveCursor count = .ok script → Inv { e with script }
  setColumn {e : Editor} : Inv e → ∀ column, Inv (e.mapScript (·.setColumn column))

structure Steady (Inv : Editor → Prop) : Prop extends Quiet Inv where
  delete {e : Editor} {h : Handle} {focus : Focus} {deleted : Bool} {script : Script} :
    Inv e → e.script.delete h focus = .ok (deleted, script) → Inv { e with script }
  placeMark {e : Editor} : Inv e → ∀ endpoint, Inv (e.mapScript (·.placeMark endpoint))
  unmark {e : Editor} : Inv e → Inv (e.mapScript (·.unmark))
  clearBlock {e : Editor} {removed : Nat} {script : Script} :
    Inv e → e.script.clearBlock = .ok (removed, script) → Inv { e with script }

structure Stable (Inv : Editor → Prop) : Prop extends Steady Inv where
  load {e : Editor} : Inv e → ∀ program, Inv (e.load program)

theorem performAll_keeps {Inv : Editor → Prop} {allowed : Operation → Prop}
    {operations : List Operation} {e e' : Editor}
    (step : ∀ {e e' operation}, Inv e → allowed operation → e.perform operation = .ok e' → Inv e')
    (inv : Inv e) (all : ∀ o ∈ operations, allowed o)
    (done : operations.foldlM Editor.perform e = .ok e') : Inv e' := by
  induction operations generalizing e with
  | nil =>
    cases done
    exact inv
  | cons operation operations ih =>
    obtain ⟨next, first, rest⟩ := bind_eq_ok.mp done
    have after := step inv (all operation List.mem_cons_self) first
    exact ih after (fun o mem => all o (List.mem_cons_of_mem operation mem)) rest

namespace Quiet

variable {Inv : Editor → Prop} (quiet : Quiet Inv) {e : Editor}

include quiet

theorem beginCommand (inv : Inv e) : Inv e.beginCommand := quiet.congr inv rfl rfl

theorem update {h : Handle} {text : String} {edited : Edited Outcome} (inv : Inv e)
    (done : e.update h text = .ok edited) : Inv edited.editor :=
  quiet.attempt inv (.update h text) (map_eq_ok.mpr ⟨edited, done, rfl⟩)

theorem insert {anchor : Handle} {relation : Relation} {text : String} {edited : Edited Handle}
    (inv : Inv e) (done : e.insert anchor relation text = .ok edited) : Inv edited.editor :=
  quiet.attempt inv (.insert anchor relation text) (map_eq_ok.mpr ⟨edited, done, rfl⟩)

theorem runMacro {invocation : String} {edited : Edited Outcome} (inv : Inv e)
    (done : e.runMacro invocation = .ok edited) : Inv edited.editor :=
  quiet.attempt inv (.runMacro invocation) (map_eq_ok.mpr ⟨edited, done, rfl⟩)

theorem quickMacro {slot : Nat} {fallback : String} {edited : Edited Outcome} (inv : Inv e)
    (done : e.quickMacro slot fallback = .ok edited) : Inv edited.editor :=
  quiet.attempt inv (.quickMacro slot fallback) (map_eq_ok.mpr ⟨edited, done, rfl⟩)

theorem setDisposition (inv : Inv e) (h : Handle) (d : Disposition) :
    Inv (e.setDisposition h d).editor :=
  quiet.attempt inv (.setDisposition h d) rfl

theorem moveTo {m : Match} {e' : Editor} (inv : Inv e) (moved : e.moveTo m = .ok e') : Inv e' := by
  obtain ⟨script, gone, rfl⟩ := moveTo_eq_ok.mp moved
  exact quiet.setColumn (quiet.moveCursor inv gone) m.column

theorem findAndMove {search : Search} {result : CommandOutcome × Editor} (inv : Inv e)
    (done : e.findAndMove search = .ok result) : Inv result.2 := by
  obtain ⟨m?, -, done⟩ := bind_eq_ok.mp done
  cases m? with
  | some m =>
    obtain ⟨e', moved, same⟩ := bind_eq_ok.mp done
    cases same
    exact quiet.moveTo inv moved
  | none =>
    cases done
    exact inv

theorem validateAll {decide : InvalidLine → Option Disposition} {result : Nat × Editor}
    (inv : Inv e) (done : e.validateAll decide = .ok result) : Inv result.2 := by
  obtain ⟨-, rfl⟩ := Script.throughLines_eq_ok.mp done
  dsimp only
  generalize e.invalidLines = undecided
  clear done
  induction undecided generalizing e with
  | nil => exact inv
  | cons l undecided ih =>
    apply ih
    unfold applyDecision
    split
    · exact inv
    · split
      · exact inv
      · exact quiet.setDisposition inv _ _

theorem replaceAt {m : Match} {length : Nat} {replacement : String} {edited : Edited Outcome}
    (inv : Inv e) (done : e.replaceAt m length replacement = .ok edited) : Inv edited.editor := by
  unfold Editor.replaceAt at done
  split at done
  · cases done
    exact inv
  · exact quiet.update inv done

theorem replaceOne {pattern replacement : String} {o : SearchOptions}
    {edited : Edited (Option Match)} (inv : Inv e)
    (done : e.replaceOne pattern replacement o = .ok edited) : Inv edited.editor := by
  obtain ⟨m?, -, done⟩ := bind_eq_ok.mp done
  cases m? with
  | none =>
    cases done
    exact inv
  | some m =>
    obtain ⟨there, moved, done⟩ := bind_eq_ok.mp done
    obtain ⟨replaced, written, same⟩ := bind_eq_ok.mp done
    cases same
    exact quiet.replaceAt (quiet.moveTo inv moved) written

theorem replaceNext {pattern replacement : String} {o : SearchOptions} {p : Pass} {step : PassStep}
    (inv : Inv e) (done : replaceNext pattern replacement o p e = .ok step) :
    match step with
    | .done _ e' => Inv e'
    | .more _ e' => Inv e' := by
  cases nextCase done with
  | missing | passed => exact inv
  | refused _ _ moved written => exact quiet.replaceAt (quiet.moveTo inv moved) written
  | replaced _ _ moved written =>
    exact quiet.setColumn (quiet.replaceAt (quiet.moveTo inv moved) written) _

theorem replaceMany {pattern replacement : String} {o : SearchOptions} {fuel : Nat} {p : Pass}
    {result : ReplaceSummary × Editor} (inv : Inv e)
    (done : replaceMany pattern replacement o fuel p e = .ok result) : Inv result.2 := by
  induction fuel generalizing p e with
  | zero => cases done
  | succ fuel ih =>
    obtain ⟨step, next, rest⟩ := bind_eq_ok.mp done
    have kept := quiet.replaceNext inv next
    cases step with
    | done summary e' =>
      cases rest
      exact kept
    | more p' e' => exact ih kept rest

theorem replaceAll {pattern replacement : String} {o : SearchOptions}
    {result : ReplaceSummary × Editor} (inv : Inv e)
    (done : e.replaceAll pattern replacement o = .ok result) : Inv result.2 :=
  quiet.replaceMany inv (replaceMany_of_replaceAll done)

theorem run {command : EditCommand} {result : CommandOutcome × Editor} (inv : Inv e)
    (still : command.isQuiet = true) (done : e.run command = .ok result) : Inv result.2 := by
  have outcome : ∀ {α : Type} {edited : Edited α}, Inv edited.editor →
      Inv (editOutcome edited).2 := by
    intro α edited kept
    unfold editOutcome
    split <;> exact kept
  cases command with
  | insertBefore text =>
    obtain ⟨edited, inserted, same⟩ := bind_eq_ok.mp done
    cases same
    exact outcome (quiet.insert inv inserted)
  | insertAfter text =>
    obtain ⟨edited, inserted, rest⟩ := bind_eq_ok.mp done
    dsimp only at rest
    split at rest
    next h accepted =>
      cases rest
      exact quiet.insertBelow inv inserted accepted
    next =>
      cases rest
      exact quiet.insert inv inserted
  | setLine text =>
    obtain ⟨edited, written, same⟩ := bind_eq_ok.mp done
    cases same
    exact outcome (quiet.update inv written)
  | moveCursor | gotoLine =>
    obtain ⟨e', went, same⟩ := bind_eq_ok.mp done
    cases same
    obtain ⟨script, moved, rfl⟩ := mapScriptM_eq_ok.mp went
    exact quiet.moveCursor inv moved
  | setColumn column =>
    cases done
    exact quiet.setColumn inv _
  | copyBlock =>
    cases done
    exact inv
  | find pattern options =>
    obtain ⟨found, sought, same⟩ := bind_eq_ok.mp done
    cases same
    exact quiet.congr (quiet.findAndMove inv sought) rfl rfl
  | findNext =>
    unfold Editor.run at done
    dsimp only at done
    split at done
    · exact quiet.findAndMove inv done
    · cases done
      exact inv
  | replace pattern replacement =>
    obtain ⟨edited, replaced, rest⟩ := bind_eq_ok.mp done
    have kept := quiet.replaceOne inv replaced
    split at rest <;> cases rest <;> exact kept
  | replaceAll pattern replacement =>
    obtain ⟨summary, replaced, same⟩ := bind_eq_ok.mp done
    cases same
    exact quiet.replaceAll inv replaced
  | validate disposition =>
    obtain ⟨decided, validated, same⟩ := bind_eq_ok.mp done
    cases same
    exact quiet.validateAll inv validated
  | runMacro invocation =>
    obtain ⟨edited, expanded, same⟩ := bind_eq_ok.mp done
    cases same
    exact outcome (quiet.runMacro inv expanded)
  | quickMacro slot fallback =>
    obtain ⟨edited, expanded, same⟩ := bind_eq_ok.mp done
    cases same
    exact outcome (quiet.quickMacro inv expanded)
  | deleteLine | markBegin | markEnd | unmark | cutBlock | clearBlock => contradiction

theorem perform {operation : Operation} {e' : Editor} (inv : Inv e)
    (still : operation.isQuiet = true) (done : e.perform operation = .ok e') : Inv e' := by
  cases operation with
  | edit edit =>
    obtain ⟨edited, tried, rfl⟩ := map_eq_ok.mp done
    exact quiet.attempt inv edit tried
  | command command =>
    obtain ⟨result, ran, rfl⟩ := map_eq_ok.mp done
    exact quiet.run (quiet.beginCommand inv) still ran
  | beginCommand =>
    cases done
    exact quiet.beginCommand inv
  | setMacros macros =>
    cases done
    exact quiet.congr inv rfl rfl
  | validateAll decide =>
    obtain ⟨result, validated, rfl⟩ := map_eq_ok.mp done
    exact quiet.validateAll inv validated
  | replaceOne pattern replacement o =>
    obtain ⟨edited, replaced, rfl⟩ := map_eq_ok.mp done
    exact quiet.replaceOne inv replaced
  | replaceAll pattern replacement o =>
    obtain ⟨result, replaced, rfl⟩ := map_eq_ok.mp done
    exact quiet.replaceAll inv replaced
  | moveCursor | gotoLine =>
    simp only [Editor.perform, mapScriptM_eq_ok] at done
    obtain ⟨script, moved, rfl⟩ := done
    exact quiet.moveCursor inv moved
  | setColumn column =>
    cases done
    exact quiet.setColumn inv column
  | load | delete | placeMark | unmark | clearBlock | cutBlock => contradiction

theorem performAll {operations : List Operation} {e' : Editor} (inv : Inv e)
    (still : ∀ o ∈ operations, o.isQuiet = true)
    (done : operations.foldlM Editor.perform e = .ok e') : Inv e' :=
  performAll_keeps (fun inv still performed => quiet.perform inv still performed) inv still done

end Quiet

theorem Reachable.performAll {c : Config} {operations : List Operation} {e e' : Editor}
    (reached : Reachable c e) (done : operations.foldlM Editor.perform e = .ok e') :
    Reachable c e' :=
  performAll_keeps (fun reached (_ : True) performed => .perform _ reached performed) reached
    (fun _ _ => trivial) done

namespace Steady

variable {Inv : Editor → Prop} (steady : Steady Inv) {e : Editor}

include steady

theorem cutBlock {lines : List String} {script : Script} (inv : Inv e)
    (cut : e.script.cutBlock = .ok (lines, script)) : Inv { e with script } := by
  obtain ⟨⟨removed, left⟩, cleared, same⟩ := bind_eq_ok.mp cut
  cases same
  exact steady.clearBlock inv cleared

theorem run {command : EditCommand} {result : CommandOutcome × Editor} (inv : Inv e)
    (done : e.run command = .ok result) : Inv result.2 := by
  cases command with
  | deleteLine =>
    obtain ⟨⟨deleted, script⟩, removed, same⟩ := bind_eq_ok.mp done
    cases same
    exact steady.delete inv removed
  | markBegin =>
    cases done
    exact steady.placeMark inv _
  | markEnd =>
    cases done
    exact steady.placeMark inv _
  | unmark =>
    cases done
    exact steady.unmark inv
  | cutBlock =>
    obtain ⟨⟨lines, script⟩, cut, same⟩ := bind_eq_ok.mp done
    cases same
    exact steady.cutBlock inv cut
  | clearBlock =>
    obtain ⟨⟨removed, script⟩, cleared, same⟩ := bind_eq_ok.mp done
    cases same
    exact steady.clearBlock inv cleared
  | _ => exact steady.toQuiet.run inv rfl done

theorem perform {operation : Operation} {e' : Editor} (inv : Inv e)
    (other : ∀ program, operation ≠ .load program) (done : e.perform operation = .ok e') :
    Inv e' := by
  cases operation with
  | command command =>
    obtain ⟨result, ran, rfl⟩ := map_eq_ok.mp done
    exact steady.run (steady.beginCommand inv) ran
  | load program => exact absurd rfl (other program)
  | delete h focus =>
    simp only [Editor.perform, mapScriptM_eq_ok] at done
    obtain ⟨script, rest, rfl⟩ := done
    obtain ⟨⟨deleted, script⟩, removed, rfl⟩ := map_eq_ok.mp rest
    exact steady.delete inv removed
  | placeMark endpoint =>
    cases done
    exact steady.placeMark inv endpoint
  | unmark =>
    cases done
    exact steady.unmark inv
  | clearBlock =>
    simp only [Editor.perform, mapScriptM_eq_ok] at done
    obtain ⟨script, rest, rfl⟩ := done
    obtain ⟨⟨removed, script⟩, cleared, rfl⟩ := map_eq_ok.mp rest
    exact steady.clearBlock inv cleared
  | cutBlock =>
    simp only [Editor.perform, mapScriptM_eq_ok] at done
    obtain ⟨script, rest, rfl⟩ := done
    obtain ⟨⟨lines, script⟩, cut, rfl⟩ := map_eq_ok.mp rest
    exact steady.cutBlock inv cut
  | _ => exact steady.toQuiet.perform inv rfl done

theorem performAll {operations : List Operation} {e' : Editor} (inv : Inv e)
    (others : ∀ program, Operation.load program ∉ operations)
    (done : operations.foldlM Editor.perform e = .ok e') : Inv e' := by
  refine performAll_keeps (fun inv other performed => steady.perform inv other performed) inv
    (fun operation mem => ?_) done
  rintro program rfl
  exact others program mem

omit steady in
/-- What a family of properties keeps, that one of them holds is kept. -/
theorem exists_of_forall {ι : Type} {Inv : ι → Editor → Prop} (steady : ∀ i, Steady (Inv i)) :
    Steady fun e => ∃ i, Inv i e where
  congr := fun ⟨i, inv⟩ script config => ⟨i, (steady i).congr inv script config⟩
  attempt := fun ⟨i, inv⟩ edit done => ⟨i, (steady i).attempt inv edit done⟩
  insertBelow := fun ⟨i, inv⟩ done accepted => ⟨i, (steady i).insertBelow inv done accepted⟩
  delete := fun ⟨i, inv⟩ removed => ⟨i, (steady i).delete inv removed⟩
  moveCursor := fun ⟨i, inv⟩ moved => ⟨i, (steady i).moveCursor inv moved⟩
  setColumn := fun ⟨i, inv⟩ column => ⟨i, (steady i).setColumn inv column⟩
  placeMark := fun ⟨i, inv⟩ endpoint => ⟨i, (steady i).placeMark inv endpoint⟩
  unmark := fun ⟨i, inv⟩ => ⟨i, (steady i).unmark inv⟩
  clearBlock := fun ⟨i, inv⟩ cleared => ⟨i, (steady i).clearBlock inv cleared⟩

end Steady

namespace Stable

variable {Inv : Editor → Prop} (stable : Stable Inv) {e : Editor}

include stable

theorem perform {operation : Operation} {e' : Editor} (inv : Inv e)
    (done : e.perform operation = .ok e') : Inv e' := by
  by_cases loads : ∃ program, operation = .load program
  · rcases loads with ⟨program, rfl⟩
    cases done
    exact stable.load inv program
  · exact stable.toSteady.perform inv (fun program same => loads ⟨program, same⟩) done

/-- What a new editor has and each change keeps, every editor has that comes of a new one. -/
theorem reachable {c : Config} (new : Inv (.new c)) (reached : Reachable c e) : Inv e := by
  induction reached with
  | new => exact new
  | perform operation _ done kept => exact stable.perform kept done

end Stable

end Editor

end RobotScript
