import RobotScript.Proofs.Run
import RobotScript.Session.Operation
/-!
What the operations of a session do to the parts that it holds: the editor goes on by operations of
its own, a clipboard stays one, and while there is one nothing is kept in its stead.
-/
namespace RobotScript

def ExCommand.isQuiet : ExCommand → Bool
  | .markStart | .markEnd | .markClear | .cut | .clear => false
  | _ => true

namespace Session

def Operation.isQuiet : Operation → Bool
  | .execute text =>
    match ExCommand.parse text with
    | .ok command => command.isQuiet
    | .error _ => true
  | .edit operation => operation.isQuiet
  | _ => true

variable {c : Config} {quiet : Prop} {s s' s'' : Session}

structure Follows (quiet : Prop) (s s' : Session) : Prop where
  editor : ∃ operations : List RobotScript.Operation,
    (quiet → ∀ o ∈ operations, o.isQuiet = true) ∧
      operations.foldlM Editor.perform s.editor = .ok s'.editor
  clipboard : s'.clipboard = .unavailable ↔ s.clipboard = .unavailable
  copyBuffer : s.clipboard ≠ .unavailable → s'.copyBuffer = s.copyBuffer

theorem Follows.trans (first : s.Follows quiet s') (second : s'.Follows quiet s'') :
    s.Follows quiet s'' where
  editor := by
    rcases first.editor with ⟨before, beforeQuiet, one⟩
    rcases second.editor with ⟨after, afterQuiet, two⟩
    refine ⟨before ++ after, fun still o mem => ?_, ?_⟩
    · rcases List.mem_append.mp mem with mem | mem
      · exact beforeQuiet still o mem
      · exact afterQuiet still o mem
    · rw [List.foldlM_append, one]
      exact two
  clipboard := second.clipboard.trans first.clipboard
  copyBuffer := fun available =>
    (second.copyBuffer (mt first.clipboard.mp available)).trans (first.copyBuffer available)

theorem Follows.of_eq (editor : s'.editor = s.editor) (clipboard : s'.clipboard = s.clipboard)
    (copyBuffer : s'.copyBuffer = s.copyBuffer) : s.Follows quiet s' :=
  ⟨⟨[], by simp, congrArg Except.ok editor.symm⟩, by rw [clipboard], fun _ => copyBuffer⟩

theorem Follows.refl (s : Session) : s.Follows quiet s := .of_eq rfl rfl rfl

theorem Follows.of_perform {operation : RobotScript.Operation} {e : Editor}
    (still : quiet → operation.isQuiet = true) (done : s.editor.perform operation = .ok e) :
    s.Follows quiet { s with editor := e } :=
  ⟨⟨[operation], by simpa using still, bind_eq_ok.mpr ⟨e, done, rfl⟩⟩, Iff.rfl, fun _ => rfl⟩

theorem tell_follows (s : Session) (status : String) : s.Follows quiet (s.tell status) :=
  .of_eq rfl rfl rfl

/-! ### Copies -/

theorem copy_of_unavailable (none : s.clipboard = .unavailable) (texts : List String) :
    s.copy texts = { s with copyBuffer := texts } := by
  unfold copy
  rw [none]
  rfl

theorem copy_of_available (some : s.clipboard ≠ .unavailable) (texts : List String) :
    s.copy texts =
      { s with clipboard := .available (Clipboard.joinLines texts) } := by
  unfold copy
  cases clipboard : s.clipboard with
  | unavailable => exact absurd clipboard some
  | available text => rfl

theorem copy_follows (s : Session) (texts : List String) : s.Follows quiet (s.copy texts) := by
  have stays : ∃ operations : List RobotScript.Operation,
      (quiet → ∀ o ∈ operations, o.isQuiet = true) ∧
        operations.foldlM Editor.perform s.editor = .ok s.editor := ⟨[], by simp, rfl⟩
  by_cases none : s.clipboard = .unavailable
  · rw [copy_of_unavailable none]
    exact ⟨stays, Iff.rfl, absurd none⟩
  · rw [copy_of_available none]
    exact ⟨stays, by simp [none], fun _ => rfl⟩

theorem report_follows (s : Session) (outcome : CommandOutcome) :
    s.Follows quiet (s.report outcome) := by
  cases outcome with
  | unchanged | changed => exact .refl s
  | status message => exact tell_follows s message
  | copied texts => exact (tell_follows s _).trans (copy_follows _ texts)
  | found m => exact tell_follows s _
  | notFound => exact tell_follows s _

/-! ### Insertions -/

theorem insertTexts_quiet {inserted : Nat} {e : Editor} {texts : List String}
    {result : InsertSummary × Editor} (done : insertTexts inserted e texts = .ok result) :
    ∃ operations : List RobotScript.Operation, (∀ o ∈ operations, o.isQuiet = true) ∧
      operations.foldlM Editor.perform e = .ok result.2 := by
  induction texts generalizing inserted e with
  | nil =>
    cases done
    exact ⟨[], by simp, rfl⟩
  | cons text texts ih =>
    obtain ⟨edited, insert, rest⟩ := bind_eq_ok.mp done
    have put : [.beginCommand, .edit (.insertAtCursor text)].foldlM Editor.perform e =
        .ok edited.editor := by
      refine bind_eq_ok.mpr ⟨e.beginCommand, rfl, bind_eq_ok.mpr ⟨edited.editor, ?_, rfl⟩⟩
      exact map_eq_ok.mpr ⟨edited.forget, map_eq_ok.mpr ⟨edited, insert, rfl⟩, rfl⟩
    have goOn : ∀ {inserted}, insertTexts inserted edited.editor texts = .ok result →
        ∃ operations : List RobotScript.Operation, (∀ o ∈ operations, o.isQuiet = true) ∧
          operations.foldlM Editor.perform e = .ok result.2 := by
      intro inserted rest
      rcases ih rest with ⟨operations, still, after⟩
      refine ⟨[.beginCommand, .edit (.insertAtCursor text)] ++ operations, ?_, ?_⟩
      · simpa [RobotScript.Operation.isQuiet] using still
      · rw [List.foldlM_append, put]
        exact after
    split at rest
    · exact goOn rest
    · cases rest
      exact ⟨_, by simp [RobotScript.Operation.isQuiet], put⟩
    · exact goOn rest

theorem insertLines_follows {texts : List String} {result : InsertSummary × Session}
    (done : s.insertLines texts = .ok result) : s.Follows quiet result.2 := by
  obtain ⟨⟨summary, editor⟩, insert, same⟩ := bind_eq_ok.mp done
  cases same
  rcases insertTexts_quiet insert with ⟨operations, still, after⟩
  exact ⟨⟨operations, fun _ => still, after⟩, Iff.rfl, fun _ => rfl⟩

theorem importFile_follows {path : String} {attended : Attended InsertSummary}
    (done : s.importFile path = .ok attended) : s.Follows quiet attended.session := by
  unfold importFile at done
  split at done
  · cases done
    exact .refl s
  · obtain ⟨⟨summary, after⟩, insert, same⟩ := bind_eq_ok.mp done
    cases same
    exact insertLines_follows insert

/-! ### Files and storage -/

theorem exportFile_of_exportLines {path : String} {region : ExportRegion} {format : ExportFormat}
    {attended : Attended String} (done : s.exportLines path region format = .ok attended) :
    s.exportFile path region format = attended := by
  cases region with
  | program => exact (Script.throughLines_eq_ok.mp done).2
  | block => exact Except.ok.inj done

theorem exportLines_follows {path : String} {region : ExportRegion} {format : ExportFormat}
    {attended : Attended String} (done : s.exportLines path region format = .ok attended) :
    s.Follows quiet attended.session := by
  rw [← exportFile_of_exportLines done]
  unfold exportFile
  split <;> exact .of_eq rfl rfl rfl

theorem write_follows (s : Session) : s.Follows quiet s.write.session := by
  unfold Session.write
  dsimp only
  split <;> exact .of_eq rfl rfl rfl

theorem close_follows (s : Session) (force : Bool) : s.Follows quiet (s.close force).session := by
  unfold close
  dsimp only
  split
  · exact tell_follows s _
  · split <;> exact .of_eq rfl rfl rfl

/-! ### Commands -/

theorem apply_follows {command : EditCommand} (still : quiet → command.isQuiet = true)
    (done : s.apply command = .ok s') : s.Follows quiet s' := by
  obtain ⟨⟨outcome, editor⟩, applied, same⟩ := bind_eq_ok.mp done
  cases same
  have performed : s.editor.perform (.command command) = .ok editor :=
    map_eq_ok.mpr ⟨_, applied, rfl⟩
  have unmoved : quiet → (RobotScript.Operation.command command).isQuiet = true := still
  have went : s.Follows quiet { s with editor } := .of_perform unmoved performed
  exact went.trans (report_follows _ outcome)

theorem perform_follows {command : EditCommand} {attended : Attended Action}
    (still : quiet → command.isQuiet = true) (done : s.perform command = .ok attended) :
    s.Follows quiet attended.session := by
  obtain ⟨after, applied, same⟩ := bind_eq_ok.mp done
  cases same
  exact apply_follows still applied

theorem run_follows {command : ExCommand} {attended : Attended Action}
    (done : s.run command = .ok attended) :
    s.Follows (command.isQuiet = true) attended.session := by
  cases command with
  | write =>
    obtain ⟨written, through, same⟩ := bind_eq_ok.mp done
    obtain ⟨-, rfl⟩ := Script.throughLines_eq_ok.mp through
    cases same
    exact write_follows s
  | quit | writeQuit =>
    obtain ⟨-, rfl⟩ := Script.throughLines_eq_ok.mp done
    exact close_follows s false
  | forceQuit =>
    obtain ⟨-, rfl⟩ := Script.throughLines_eq_ok.mp done
    exact close_follows s true
  | paste =>
    obtain ⟨⟨summary, after⟩, pasted, same⟩ := bind_eq_ok.mp done
    cases same
    exact (insertLines_follows pasted).trans (tell_follows _ _)
  | validate disposition =>
    cases disposition with
    | some d => exact perform_follows (fun _ => rfl) done
    | none =>
      obtain ⟨-, rfl⟩ := Script.throughLines_eq_ok.mp done
      exact tell_follows s _
  | importFile path =>
    obtain ⟨imported, insert, rest⟩ := bind_eq_ok.mp done
    split at rest <;> cases rest
    · exact (importFile_follows insert).trans (tell_follows _ _)
    · exact importFile_follows insert
  | exportFile path region format =>
    obtain ⟨exported, write, rest⟩ := bind_eq_ok.mp done
    split at rest <;> cases rest
    · exact (exportLines_follows write).trans (tell_follows _ _)
    · exact exportLines_follows write
  | goto | find | replace | replaceAll | markStart | markEnd | markClear | copy | cut | clear
  | runMacro | quick => exact perform_follows id done

theorem execute_follows {text : String} {attended : Attended Action}
    (done : s.execute text = .ok attended) :
    s.Follows ((Operation.execute text).isQuiet = true) attended.session := by
  unfold execute at done
  unfold Operation.isQuiet
  split at done
  next refused =>
    cases done
    exact .refl s
  next command read =>
    dsimp only
    rw [read]
    exact run_follows done

/-- Whatever a session is asked for. -/
theorem serve_follows {operation : Operation} (done : s.serve operation = .ok s') :
    s.Follows (operation.isQuiet = true) s' := by
  cases operation with
  | execute text =>
    obtain ⟨attended, executed, rfl⟩ := map_eq_ok.mp done
    exact execute_follows executed
  | paste =>
    obtain ⟨result, pasted, rfl⟩ := map_eq_ok.mp done
    exact insertLines_follows pasted
  | importFile path =>
    obtain ⟨attended, imported, rfl⟩ := map_eq_ok.mp done
    exact importFile_follows imported
  | exportFile path region format =>
    obtain ⟨attended, exported, rfl⟩ := map_eq_ok.mp done
    exact exportLines_follows exported
  | write =>
    obtain ⟨-, rfl⟩ := Script.throughLines_eq_ok.mp done
    exact write_follows s
  | close force =>
    obtain ⟨-, rfl⟩ := Script.throughLines_eq_ok.mp done
    exact close_follows s force
  | edit operation =>
    obtain ⟨editor, performed, rfl⟩ := map_eq_ok.mp done
    exact .of_perform id performed
  | setSettings settings =>
    cases done
    exact .of_eq rfl rfl rfl
  | setFolder folder =>
    cases done
    exact .of_eq rfl rfl rfl

theorem serve_edit {operation : RobotScript.Operation} {e : Editor}
    (done : s.editor.perform operation = .ok e) :
    s.serve (.edit operation) = .ok { s with editor := e } := by
  rw [serve, done]
  rfl

/-! ### Reachable sessions -/

theorem start_editor {storage : Storage} {clipboard : Clipboard} {settings : Settings}
    {folder : Folder} (started : start storage clipboard settings folder = .ok s) :
    Editor.Reachable settings.config s.editor ∧ s.copyBuffer = [] := by
  obtain ⟨program, -, same⟩ := bind_eq_ok.mp started
  cases same
  have fresh := Editor.Reachable.perform (c := settings.config)
    (.setMacros settings.library) .new rfl
  refine ⟨?_, rfl⟩
  dsimp only
  split
  · exact fresh
  · exact .perform (.load program) fresh rfl

def opened (program : Bytes) (clipboard : Clipboard) : Session where
  editor := (Editor.new {}).load program
  storage := ⟨program, 0, none, none⟩
  clipboard := clipboard
  settings := .initial
  copyBuffer := []
  status := ""
  folder := []

theorem reachable_opened (program : Bytes) (some : program ≠ []) (clipboard : Clipboard) :
    Reachable {} (opened program clipboard) := by
  apply Reachable.start ⟨program, 0, none, none⟩ clipboard .initial [] rfl
  cases program with
  | nil => contradiction
  | cons b bs => rfl

theorem Reachable.edits {operations : List RobotScript.Operation} {e : Editor}
    (reached : Reachable c s) (done : operations.foldlM Editor.perform s.editor = .ok e) :
    Reachable c { s with editor := e } := by
  induction operations generalizing s with
  | nil =>
    cases done
    exact reached
  | cons operation operations ih =>
    obtain ⟨next, first, rest⟩ := bind_eq_ok.mp done
    have went : Reachable c { s with editor := next } :=
      .serve (.edit operation) reached (serve_edit first)
    exact ih (s := { s with editor := next }) went rest

theorem Reachable.editor (reached : Reachable c s) : Editor.Reachable c s.editor := by
  induction reached with
  | start storage clipboard settings folder config started =>
    exact config ▸ (start_editor started).1
  | serve operation _ done kept =>
    rcases (serve_follows done).editor with ⟨operations, -, went⟩
    exact kept.performAll went

theorem Reachable.copyBuffer_eq_nil (reached : Reachable c s)
    (available : s.clipboard ≠ .unavailable) : s.copyBuffer = [] := by
  induction reached with
  | start storage clipboard settings folder _ started => exact (start_editor started).2
  | serve operation _ done kept =>
    have went := serve_follows done
    have before := mt went.clipboard.mpr available
    exact (went.copyBuffer before).trans (kept before)

end Session

end RobotScript
