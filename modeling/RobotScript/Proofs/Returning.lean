import RobotScript.Proofs.InOrder
import RobotScript.Proofs.Ways
/-!
Edits come to an end. In a sound script all ways have an end, and an edit keeps the script sound at
each step; so nothing stops it but a parameter that can have no value.
-/
namespace RobotScript.Editor

variable {e : Editor} {es as bs new : List Entry} {h : Handle} {n : Nat}

/-- Whether a writer comes to an end in sound scripts. -/
def Writer.Returns (write : Writer) : Prop :=
  ∀ ⦃e : Editor⦄ ⦃es : List Entry⦄, e.script.Sound es → e.macros.Ranged →
    ∀ h text, ∃ edited, write e h text = .ok edited

section Expansion

variable {write : Writer} {log : Log} (splices : write.Splices) (bounded : write.Bounded log)
  (returns : write.Returns)

include returns

theorem insertWith_returns {relation : Relation} (sound : e.script.Sound (as ++ bs))
    (gap : Gap as bs h n relation) (ranged : e.macros.Ranged) (text : String) :
    ∃ edited, insertWith write e h n relation text = .ok edited := by
  rcases sound.insertLine_gap gap .empty with ⟨h', script, inserted, grown⟩
  rcases returns (e := { e with script }) grown.sound ranged h' text with ⟨edited, wrote⟩
  unfold insertWith
  rw [inserted]
  dsimp only
  rw [wrote]
  simp only [bind, Except.bind]
  split <;> exact ⟨_, rfl⟩

include splices bounded

theorem emitRest_returns {s : Script} (texts : List String) (grown : s.Grown as new bs e.script)
    (nonempty : as ≠ []) (ranged : e.macros.Ranged) :
    ∃ edited, emitRest write as.length (as.length + bs.length) (bs.head?.map (·.handle)) e texts =
      .ok edited := by
  induction texts generalizing e new with
  | nil => exact ⟨_, rfl⟩
  | cons text texts ih =>
    have sound := grown.sound
    rw [← List.append_assoc] at sound
    rcases emitPlace_gap grown.sound.toLists nonempty with ⟨anchor, number, relation, place, gap⟩
    rcases insertWith_returns returns sound gap ranged text with ⟨edited, insert⟩
    have after := insertWith_splices splices sound gap insert
    have frame := insertWith_bounded bounded e anchor number relation text
    rw [insert] at frame
    unfold emitRest
    rw [place]
    simp only [bind, Except.bind]
    rw [insert]
    dsimp only
    cases result : edited.result with
    | error err => exact ⟨_, rfl⟩
    | ok placed =>
      rw [result] at after
      rcases after with ⟨line, more, again⟩
      exact ih (grown.trans again rfl rfl) (frame.frame.macros ▸ ranged)

theorem emit_returns {old : Line} (sound : e.script.Sound (as ++ ⟨h, old⟩ :: bs))
    (ranged : e.macros.Ranged) (lines : List String) :
    ∃ edited, emit write e h (as.length + 1) (bs.head?.map (·.handle)) lines = .ok edited := by
  rcases returns sound ranged h (lines.headD "") with ⟨edited, wrote⟩
  have after := splices sound wrote
  have frame := bounded e h (lines.headD "")
  rw [wrote] at frame
  unfold emit
  rw [wrote]
  simp only [bind, Except.bind]
  cases result : edited.result with
  | error err => exact ⟨_, rfl⟩
  | ok outcome =>
    rw [result] at after
    rcases after with ⟨line, new, grown⟩
    rcases emitRest_returns splices bounded returns lines.tail grown (by simp)
      (frame.frame.macros ▸ ranged) with ⟨rest, emitted⟩
    rw [← emitRest_split sound ⟨h, line⟩] at emitted
    dsimp only
    rw [emitted]
    exact ⟨_, rfl⟩

theorem expandTemplate_returns {old : Line} {t : Macro.Template} (known : t ∈ e.macros.templates)
    (sound : e.script.Sound (as ++ ⟨h, old⟩ :: bs)) (ranged : e.macros.Ranged)
    (args : List Macro.Argument) :
    ∃ edited, expandTemplate write e h old (as.length + 1) t args = .ok edited := by
  rcases Macro.Template.exists_bind (ranged t known) args with ⟨values, bound⟩
  rcases emit_returns splices bounded returns (e := e.enter) sound ranged (t.render values) with
    ⟨edited, emitted⟩
  rw [expandTemplate_eq, bound, sound.next?_split]
  simp only [bind, Except.bind]
  rw [emitted]
  dsimp only
  split
  · exact ⟨_, rfl⟩
  · rcases emit_splices splices (e := e.enter) sound emitted with ⟨line, new, grown⟩
    rcases discardBetween_grown (e := edited.editor.leave) grown with ⟨left, discarded, -⟩
    rw [discarded]
    exact ⟨_, rfl⟩

end Expansion

theorem writeWith_returns (levels : Nat) : (writeWith levels).Returns := by
  -- The lines of a macro are written one level further down.
  induction levels using Nat.strongRecOn with
  | ind levels deeper =>
    intro e es sound ranged h text
    have write := writeCase levels e h text
    generalize writeWith levels e h text = result at write
    cases write with
    | endless _ _ _ _ lost =>
      rw [sound.numberOf] at lost
      contradiction
    | @expanded prior t below number same found _ known _ numbered =>
      subst same
      rcases sound.split_of_get? found with ⟨as, bs, rfl⟩
      cases sound.lineNumber?_split.symm.trans numbered
      exact expandTemplate_returns (writeWith_splices below) (writeWith_bounded below)
        (deeper below (Nat.lt_succ_self below)) (Macro.Library.mem_of_get? known) sound ranged _
    | _ => exact ⟨_, rfl⟩

theorem update_returns (sound : e.script.Sound es) (ranged : e.macros.Ranged) (h : Handle)
    (text : String) : ∃ edited, e.update h text = .ok edited :=
  writeWith_returns e.levelsLeft sound ranged h text

theorem insertNumbered_returns (sound : e.script.Sound es) (ranged : e.macros.Ranged)
    (numbered : e.script.lineNumber? h = some n) (relation : Relation) (text : String) :
    ∃ edited, e.insertNumbered h n relation text = .ok edited := by
  rcases sound.gap_of_lineNumber? numbered relation with ⟨as, bs, rfl, gap⟩ | nowhere
  · exact insertWith_returns (writeWith_returns _) sound gap ranged text
  · rcases sound.insertLine_refused (.inr nowhere) .empty with ⟨script, refused, -⟩
    unfold insertNumbered insertWith
    rw [refused]
    exact ⟨_, rfl⟩

theorem insert_returns (sound : e.script.Sound es) (ranged : e.macros.Ranged) (h : Handle)
    (relation : Relation) (text : String) : ∃ edited, e.insert h relation text = .ok edited := by
  unfold Editor.insert
  rw [sound.numberOf]
  cases numbered : e.script.lineNumber? h with
  | none => exact ⟨_, rfl⟩
  | some number =>
    rcases insertNumbered_returns sound ranged numbered relation text with ⟨edited, done⟩
    simp only [bind, Except.bind]
    rw [done]
    exact ⟨_, rfl⟩

theorem typeText_returns (sound : e.script.Sound es) (ranged : e.macros.Ranged) (typed : String) :
    ∃ edited, e.typeText typed = .ok edited := by
  unfold typeText
  split
  · exact ⟨_, rfl⟩
  · dsimp only
    generalize Text.cut Line.maxText _ = text
    rcases update_returns sound ranged e.script.cursor.handle text with ⟨edited, done⟩
    rw [done]
    simp only [bind, Except.bind]
    split <;> exact ⟨_, rfl⟩

theorem runMacro_returns (sound : e.script.Sound es) (ranged : e.macros.Ranged)
    (invocation : String) : ∃ edited, e.runMacro invocation = .ok edited := by
  unfold runMacro
  dsimp only
  generalize String.ofList _ = text
  rcases insertNumbered_returns sound ranged sound.lineNumber?_cursor .before text with
    ⟨edited, done⟩
  rw [done]
  exact ⟨_, rfl⟩

theorem attempt_returns (sound : e.script.Sound es) (ranged : e.macros.Ranged) (edit : Edit) :
    ∃ edited, e.attempt edit = .ok edited := by
  cases edit with
  | update h text =>
    rcases update_returns sound ranged h text with ⟨edited, done⟩
    exact ⟨_, map_eq_ok.mpr ⟨edited, done, rfl⟩⟩
  | insert anchor relation text =>
    rcases insert_returns sound ranged anchor relation text with ⟨edited, done⟩
    exact ⟨_, map_eq_ok.mpr ⟨edited, done, rfl⟩⟩
  | insertAtCursor text =>
    rcases insert_returns sound ranged e.script.cursor.handle .before text with ⟨edited, done⟩
    exact ⟨_, map_eq_ok.mpr ⟨edited, done, rfl⟩⟩
  | runMacro invocation =>
    rcases runMacro_returns sound ranged invocation with ⟨edited, done⟩
    exact ⟨_, map_eq_ok.mpr ⟨edited, done, rfl⟩⟩
  | quickMacro slot fallback =>
    have run : ∃ edited, e.quickMacro slot fallback = .ok edited := by
      unfold quickMacro
      dsimp only
      split
      · exact runMacro_returns sound ranged _
      · exact typeText_returns sound ranged fallback
    rcases run with ⟨edited, done⟩
    exact ⟨_, map_eq_ok.mpr ⟨edited, done, rfl⟩⟩
  | setDisposition h d => exact ⟨_, rfl⟩
  | insertBlank anchor relation =>
    unfold attempt
    dsimp only
    rw [sound.insertBlank]
    exact ⟨_, rfl⟩

/-! ### Updates under guards -/

/-- Where there is room for a blank line, an update ends, whatever macros its text calls. It stays
within its guards in any case: the recursion needs no more rounds than macros may still nest, and
every macro that is expanded is counted. -/
theorem Reachable.update_guarded {c : Config} (reached : Reachable c e) (ranged : e.macros.Ranged)
    (h : Handle) (text : String) :
    (5 ≤ c.maxSize → ∃ edited, e.update h text = .ok edited) ∧
      (∀ fault, e.update h text = .error fault → fault = .endless) ∧
      (∀ deeper, (writeBody^[e.levelsLeft + 1] deeper) e h text = e.update h text) ∧
      (e.log h text).length ≤ e.config.maxMacroRepeat - e.guards.expansions ∧
      (∀ x ∈ e.log h text,
        x.depth ≤ e.config.maxMacroRecursion ∧ x.template ∈ e.macros.templates) ∧
      ∀ edited, e.update h text = .ok edited →
        edited.editor.guards.expansions = e.guards.expansions + (e.log h text).length ∧
        edited.editor.guards.depth = e.guards.depth ∧
        edited.editor.script.lineCount ≤
          e.script.lineCount + (e.log h text).length * e.macros.longest := by
  have returns : 5 ≤ c.maxSize → ∃ edited, e.update h text = .ok edited := by
    intro room
    rcases (reached.inOrder room).script.sound with ⟨es, sound⟩
    exact update_returns sound ranged h text
  have rounds : ∀ deeper, (writeBody^[e.levelsLeft + 1] deeper) e h text = e.update h text :=
    fun deeper => congrFun₂ (iterate_writeBody deeper (Nat.lt_succ_self e.levelsLeft)) h text
  have bounded := update_bounded e h text
  refine ⟨returns, ?_, rounds, ?_⟩
  · intro fault stopped
    rw [stopped] at bounded
    exact bounded.2.resolve_right fun void => void ranged
  · cases run : e.update h text with
    | error fault =>
      rw [run] at bounded
      exact ⟨bounded.1.ceiling, bounded.1.nested, fun edited done => by cases done⟩
    | ok edited =>
      rw [run] at bounded
      refine ⟨bounded.ceiling, bounded.nested, ?_⟩
      rintro _ ⟨⟩
      exact ⟨bounded.expansions, bounded.frame.depth, bounded.lineCount⟩

def withLoop : Editor :=
  { Editor.new { maxMacroRecursion := 2 } with macros := ⟨[⟨"a", "", [], ["#a", "#a"]⟩]⟩ }

theorem update_guarded_loop : Reachable { maxMacroRecursion := 2 } withLoop ∧
    (withLoop.log ⟨1, 0⟩ "#a").length = 3 ∧
    ∃ edited, withLoop.update ⟨1, 0⟩ "#a" = .ok edited ∧ edited.editor.guards = ⟨0, 3⟩ ∧
      edited.editor.script.lineCount ≤ 1 + 3 * 2 := by
  have reached : Reachable { maxMacroRecursion := 2 } withLoop := .perform (.setMacros _) .new rfl
  have ranged : withLoop.macros.Ranged := by
    simp [withLoop, Macro.Library.Ranged]
  have logged : (withLoop.log ⟨1, 0⟩ "#a").length = 3 := by decide +kernel
  obtain ⟨returns, -, -, -, -, counted⟩ := Reachable.update_guarded reached ranged ⟨1, 0⟩ "#a"
  obtain ⟨edited, done⟩ := returns (by decide)
  obtain ⟨expansions, depth, lines⟩ := counted edited done
  rw [logged] at expansions lines
  refine ⟨reached, logged, edited, done, ?_, lines⟩
  cases guards : edited.editor.guards with
  | mk _ _ =>
    rw [guards] at expansions depth
    exact congrArg₂ Guards.mk depth expansions

/-- Without room for a blank line, the numbers that are kept may come to differ from those that are
counted, and the ends of a mark to be taken for each other. What is cleared between them leaves a way
that goes round, and a line that hangs below one which is gone is looked for on it in vain. -/
theorem update_endless : ∃ e : Editor, Reachable { maxSize := 4 } e ∧ e.macros.Ranged ∧
    e.script.contains ⟨9, 0⟩ = true ∧ e.script.cursor = ⟨⟨8, 0⟩, 1, 0⟩ ∧
    (∀ n, (e.script.links.walk n e.script.first?).length = n) ∧
    e.update ⟨9, 0⟩ "#two" = .error .endless := by
  let operations : List Operation := [.setMacros ⟨[⟨"two", "", [], ["a", "b"]⟩]⟩,
    .edit (.insert .top .after "q"), .edit (.insert .top .after "q"), .clearBlock, .moveCursor 1,
    .placeMark .stop, .moveCursor (-1), .edit (.insert ⟨1, 0⟩ .before "q"), .moveCursor 1,
    .placeMark .stop, .clearBlock, .clearBlock, .clearBlock,
    .edit (.insert .top .after "q"), .edit (.insert .top .after "q"),
    .edit (.insert .top .after "q"), .edit (.insert .top .after "q"), .moveCursor 1,
    .placeMark .stop, .moveCursor (-1), .edit (.insert ⟨3, 0⟩ .before "q"),
    .edit (.insert ⟨3, 0⟩ .before "q"), .moveCursor 1, .placeMark .stop, .moveCursor 3,
    .command (.insertAfter "q"), .delete ⟨1, 1⟩ .next, .delete ⟨4, 0⟩ .next,
    .delete ⟨5, 0⟩ .next, .moveCursor (-1), .clearBlock]
  have run : (operations.foldlM Editor.perform (.new { maxSize := 4 })).map
      (fun e => (e.macros.templates, e.script.contains ⟨9, 0⟩, e.script.cursor,
        e.script.links.endless e.script.first?, (e.update ⟨9, 0⟩ "#two").map fun _ => ())) =
      .ok ([⟨"two", "", [], ["a", "b"]⟩], true, ⟨⟨8, 0⟩, 1, 0⟩, true, .error .endless) := by
    decide +kernel
  rcases map_eq_ok.mp run with ⟨e, done, shown⟩
  simp only [Prod.mk.injEq] at shown
  rcases shown with ⟨macros, there, cursor, round, stopped⟩
  have ranged : e.macros.Ranged := by
    unfold Macro.Library.Ranged
    rw [macros]
    simp
  exact ⟨e, Reachable.new.performAll done, ranged, there, cursor, Links.endless_iff.mp round,
    map_eq_error.mp stopped⟩

end RobotScript.Editor
