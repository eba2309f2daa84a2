import RobotScript.Proofs.Capacity
import RobotScript.Proofs.Closing
import RobotScript.Proofs.Files
import RobotScript.Proofs.Reassembly
/-!
Bytecode that is exported and imported again. The records of the file are shown as texts, and these
are assembled again, one line above the cursor for each.
-/
namespace RobotScript

namespace Script

structure CursorOn (s : Script) (as : List Entry) (x : Entry) (bs : List Entry) : Prop where
  sound : s.Sound (as ++ x :: bs)
  here : x.handle = s.cursor.handle
  number : s.cursor.line = as.length + 1

/-- Whether some lines have been put in right above the cursor line. All others stay as they are, and
the cursor stays on its line. -/
structure PutsAbove (s : Script) (new : List Entry) (s' : Script) : Prop where
  entries : s'.entries =
    s.entries.take (s.cursor.line - 1) ++ (new ++ s.entries.drop (s.cursor.line - 1))
  anchor : (s.entries.drop (s.cursor.line - 1)).head?.map (·.handle) = some s.cursor.handle
  cursor : s'.cursor = { s.cursor with line := s.cursor.line + new.length }
  fresh : ∀ x ∈ new, x.handle ∉ s.handles
  capacity : s'.capacity = s.capacity

variable {s s' : Script} {es as bs new : List Entry} {x : Entry}

theorem Grown.programSize_eq (sound : s.Sound (as ++ bs)) (grown : s.Grown as new bs s') :
    s'.programSize = s.programSize + Entry.sizeOf new := by
  have before := sound.size
  have after := grown.sound.size
  simp only [Entry.sizeOf_append] at before after
  rw [programSize, programSize, before, after]
  omega

theorem Grown.cursor_eq (grown : s.Grown as new bs s') (number : s.cursor.line = as.length + 1) :
    s'.cursor = { s.cursor with line := s.cursor.line + new.length } := by
  rw [grown.shifted.cursor, renumber, if_pos (Nat.le_of_eq number.symm)]

theorem Sound.exists_cursorOn (sound : s.Sound es) : ∃ as x bs, s.CursorOn as x bs := by
  rcases sound.cursor.split with ⟨as, x, bs, rfl, number, here⟩
  exact ⟨as, x, bs, sound, here, number⟩

namespace CursorOn

variable (on : s.CursorOn as x bs)

include on

theorem grown (grown : s.Grown as new (x :: bs) s') : s'.CursorOn (as ++ new) x bs where
  sound := by simpa using grown.sound
  here := by rw [grown.cursor_eq on.number, on.here]
  number := by
    rw [grown.cursor_eq on.number, on.number, List.length_append]
    exact Nat.add_right_comm _ _ _

theorem putsAbove (grown : s.Grown as new (x :: bs) s') : s.PutsAbove new s' where
  entries := by
    rw [grown.sound.entries, on.sound.entries, on.number, Nat.add_sub_cancel, List.take_left,
      List.drop_left]
  anchor := by
    rw [on.sound.entries, on.number, Nat.add_sub_cancel, List.drop_left]
    exact congrArg some on.here
  cursor := grown.cursor_eq on.number
  fresh := by
    intro y mem old
    have before : s.handles = Entry.handlesOf (as ++ x :: bs) :=
      congrArg Entry.handlesOf on.sound.entries
    have distinct := grown.sound.distinct
    have given := Entry.mem_handlesOf mem
    rw [before, Entry.handlesOf_append, List.mem_append] at old
    rcases old with above | below
    · exact Entry.apart_of_nodup distinct _ above (by simp [given])
    · exact Entry.apart_of_nodup (distinct.sublist (by simp)) _ given below
  capacity := grown.shifted.capacity

end CursorOn

def regionLines (s : Script) : ExportRegion → List Line
  | .program => s.lines
  | .block => s.blockLines s.block

theorem exportBlock_bytecode (s : Script) (region : ExportRegion) :
    s.exportBlock .bytecode region =
      programPrologue :: ((s.regionLines region).flatMap Line.programBytes ++ [programEpilogue]) := by
  cases region <;> rfl

end Script

theorem decodeRecords_assembled {ls : List Line} (assembled : ∀ l ∈ ls, l.Assembled) :
    decodeRecords (ls.flatMap Line.programBytes ++ [programEpilogue]) = .ok (ls.map Line.text) := by
  obtain ⟨records, split, lines, -⟩ := exists_splitRecords
    (fun l mem => (assembled l mem).inStep) fun l mem => (assembled l mem).isSaved
  have reloaded : ls.map Line.reloaded = ls := by
    calc ls.map Line.reloaded = ls.map id := List.map_congr_left fun l mem => by
          rw [(assembled l mem).eq_compiled]
          rfl
      _ = ls := List.map_id ls
  have texts := congrArg (List.map Line.text) (lines.trans reloaded)
  rw [List.map_map] at texts
  rw [decodeRecords_eq, split, if_pos (.inr rfl)]
  exact congrArg Except.ok texts

theorem three_le_sizeOfAll {ls : List Line} (assembled : ∀ l ∈ ls, l.Assembled) (some : ls ≠ []) :
    3 ≤ Line.sizeOfAll ls := by
  obtain ⟨l, ls, rfl⟩ := List.exists_cons_of_ne_nil some
  have first := (assembled l List.mem_cons_self).three_le_size
  rw [Line.sizeOfAll]
  omega

theorem importLines_of_read {f : Folder} {path : String} {body : Bytes}
    (read : f.read path = .ok (programPrologue :: body))
    (bytecode : Path.hasExtension path.toList ExportFormat.bytecode.extension = true)
    (long : minBytecodeFile ≤ (programPrologue :: body).length) :
    importLines f path = (decodeRecords body).mapError fun err =>
      .malformedImport s!"{path}: {err.message}" := by
  have whole : readBytecode path (programPrologue :: body) = .ok body := by
    rw [readBytecode, if_neg (Nat.not_lt.mpr long)]
    rfl
  unfold importLines readImport
  rw [read]
  simp [bytecode, whole, bind, Except.bind, Except.mapError, pure, Except.pure]

namespace Editor

variable {e : Editor} {as bs : List Entry} {x : Entry} {l : Line} {ls : List Line}

theorem insertAtCursor_assembled (on : e.script.CursorOn as x bs) (assembled : l.Assembled)
    (clear : l.Clear) (room : e.script.programSize + l.size ≤ e.script.capacity) :
    ∃ h e', e.insertAtCursor l.text = .ok ⟨.ok h, e'⟩ ∧
      e.script.Grown as [⟨h, l⟩] (x :: bs) e'.script := by
  have made := assembled.compile_text_iff.mpr clear
  have sound := on.sound
  obtain ⟨h, s, put, grown⟩ := sound.insertLine_gap (.above as x bs) .empty
  have found : s.get? h = some .empty := grown.sound.get?_split (x := ⟨h, .empty⟩)
  have admits : s.checkCapacity Line.empty.size l.bytecode.length = .ok () := by
    have size : s.programSize = e.script.programSize := grown.programSize_eq sound
    have capacity : s.capacity = e.script.capacity := grown.shifted.capacity
    rw [assembled.size_eq] at room
    exact if_neg (by rw [size, capacity]; exact Nat.not_lt.mpr room)
  have written : writeWith e.levelsLeft { e with script := s } h l.text =
      .ok ⟨.ok .compiled, { e with script := s.setLine h l }⟩ := by
    unfold writeWith
    simp only [found, assembled.callsMacro_eq_false, Bool.false_eq_true, if_false]
    unfold writePlain
    simp only [made, Nat.not_lt.mpr assembled.size_text_le, if_false, admits, setLine,
      ← assembled.eq_compiled]
  refine ⟨h, { e with script := s.setLine h l }, ?_, ?_⟩
  · unfold insertAtCursor Editor.insert insertNumbered insertWith
    rw [sound.numberOf, sound.lineNumber?_cursor, on.number, ← on.here]
    dsimp only [bind, Except.bind]
    rw [put]
    simp [written, pure, Except.pure, Except.map]
  · have whole : s.Sound (as ++ ⟨h, .empty⟩ :: x :: bs) := grown.sound
    exact grown.trans (whole.grown_setLine l) rfl rfl

theorem insertTexts_assembled (on : e.script.CursorOn as x bs)
    (assembled : ∀ l ∈ ls, l.Assembled) (clear : ∀ l ∈ ls, l.Clear)
    (room : e.script.programSize + Line.sizeOfAll ls ≤ e.script.capacity) (inserted : Nat) :
    ∃ new e', Session.insertTexts inserted e (ls.map Line.text) =
        .ok (⟨inserted + ls.length, none⟩, e') ∧
      new.map (·.line) = ls ∧ e.script.Grown as new (x :: bs) e'.script := by
  induction ls generalizing e as inserted with
  | nil => exact ⟨[], e, rfl, rfl, .refl on.sound⟩
  | cons l ls ih =>
    rw [Line.sizeOfAll] at room
    obtain ⟨h, e', put, grown⟩ := insertAtCursor_assembled (e := e.beginCommand) on
      (assembled l List.mem_cons_self) (clear l List.mem_cons_self) (by
        change e.script.programSize + l.size ≤ e.script.capacity
        omega)
    have size : e'.script.programSize = e.script.programSize + l.size :=
      grown.programSize_eq on.sound
    have capacity : e'.script.capacity = e.script.capacity := grown.shifted.capacity
    obtain ⟨new, e'', rest, same, more⟩ := ih (on.grown grown)
      (fun y mem => assembled y (List.mem_cons_of_mem l mem))
      (fun y mem => clear y (List.mem_cons_of_mem l mem)) (by omega) (inserted + 1)
    refine ⟨⟨h, l⟩ :: new, e'', ?_, congrArg (l :: ·) same, grown.trans more rfl rfl⟩
    rw [List.map_cons, Session.insertTexts, put, List.length_cons, Nat.add_comm ls.length,
      ← Nat.add_assoc]
    exact rest

end Editor

namespace Session

variable {c : Config} {s d : Session} {ls : List Line}

theorem mapError_eq_ok {ε ε' α : Type} {x : Except ε α} {f : ε → ε'} {a : α} :
    x.mapError f = .ok a ↔ x = .ok a := by
  cases x <;> simp [Except.mapError]

theorem read_exportFile {path written : String} {region : ExportRegion} {format : ExportFormat}
    (exported : (s.exportFile path region format).result = .ok written) :
    (s.exportFile path region format).session.folder.read written =
      .ok (s.editor.script.exportBlock format region) := by
  unfold exportFile at exported ⊢
  split at exported
  next => contradiction
  next target folder done =>
    cases exported
    obtain ⟨f, stored, same⟩ := bind_eq_ok.mp done
    cases same
    exact Folder.read_write (mapError_eq_ok.mp stored)

theorem exportFile_editor (s : Session) (path : String) (region : ExportRegion)
    (format : ExportFormat) : (s.exportFile path region format).session.editor = s.editor := by
  unfold exportFile
  split <;> rfl

theorem Reachable.insertLines_assembled (reached : Reachable c d)
    (assembled : ∀ l ∈ ls, l.Assembled) (clear : ∀ l ∈ ls, l.Clear) (some : ls ≠ [])
    (room : d.editor.script.programSize + Line.sizeOfAll ls ≤ c.maxSize) :
    ∃ new e', d.insertLines (ls.map Line.text) = .ok (⟨ls.length, none⟩, { d with editor := e' }) ∧
      new.map (·.line) = ls ∧
      e'.script.entries =
        d.editor.script.entries.take (d.editor.script.cursor.line - 1) ++
          (new ++ d.editor.script.entries.drop (d.editor.script.cursor.line - 1)) ∧
      e'.script.cursor =
        { d.editor.script.cursor with line := d.editor.script.cursor.line + ls.length } := by
  have least := three_le_sizeOfAll assembled some
  have framed : 2 ≤ d.editor.script.programSize := Nat.le_add_left 2 _
  obtain ⟨es, sound⟩ := (reached.editor.inOrder (by omega)).script.sound
  obtain ⟨as, x, bs, on⟩ := sound.exists_cursorOn
  obtain ⟨new, e', inserted, same, grown⟩ := Editor.insertTexts_assembled on assembled clear
    (reached.editor.capacity_eq ▸ room) 0
  have puts := on.putsAbove grown
  have count : new.length = ls.length := by simpa using congrArg List.length same
  refine ⟨new, e', ?_, same, puts.entries, count ▸ puts.cursor⟩
  rw [insertLines, inserted, Nat.zero_add]
  rfl

/-- However a session came about, lines that were assembled and whose texts are clear come back when
the bytecode they are exported as is imported, one line above the cursor for each. -/
theorem Reachable.import_export (reached : Reachable c d) {path written : String}
    {region : ExportRegion} (lines : s.editor.script.regionLines region = ls)
    (assembled : ∀ l ∈ ls, l.Assembled) (clear : ∀ l ∈ ls, l.Clear)
    (exported : (s.exportFile path region .bytecode).result = .ok written)
    (there : d.folder.read written =
      (s.exportFile path region .bytecode).session.folder.read written)
    (named : Path.hasExtension written.toList ExportFormat.bytecode.extension = true)
    (room : d.editor.script.programSize + Line.sizeOfAll ls ≤ c.maxSize) :
    ∃ attended new, d.importFile written = .ok attended ∧
      (ls ≠ [] → attended.result = .ok ⟨ls.length, none⟩) ∧
      new.map (·.line) = ls ∧
      attended.session.editor.script.entries =
        d.editor.script.entries.take (d.editor.script.cursor.line - 1) ++
          (new ++ d.editor.script.entries.drop (d.editor.script.cursor.line - 1)) ∧
      attended.session.editor.script.cursor =
        { d.editor.script.cursor with line := d.editor.script.cursor.line + ls.length } := by
  have read : d.folder.read written =
      .ok (programPrologue :: (ls.flatMap Line.programBytes ++ [programEpilogue])) := by
    rw [there, read_exportFile exported, Script.exportBlock_bytecode, lines]
  by_cases some : ls = []
  · subst some
    have short : d.importFile written =
        .ok ⟨.error (.io (.malformedImport s!"{written} is only {2} bytes")), d⟩ := by
      unfold importFile importLines readImport
      rw [read]
      simp [named]
      rfl
    exact ⟨_, [], short, absurd rfl, rfl, (List.take_append_drop _ _).symm, rfl⟩
  · have long : minBytecodeFile ≤
        (programPrologue :: (ls.flatMap Line.programBytes ++ [programEpilogue])).length := by
      have least := three_le_sizeOfAll assembled some
      rw [← Script.length_flatMap_programBytes fun l mem => (assembled l mem).inStep] at least
      simp only [minBytecodeFile, List.length_cons, List.length_append, List.length_nil]
      omega
    obtain ⟨new, e', inserted, same, entries, cursor⟩ :=
      reached.insertLines_assembled assembled clear some room
    refine ⟨⟨.ok ⟨ls.length, none⟩, { d with editor := e' }⟩, new, ?_, fun _ => rfl, same, entries,
      cursor⟩
    unfold importFile
    rw [importLines_of_read read named long, decodeRecords_assembled assembled]
    simp [Except.mapError, inserted, bind, Except.bind, pure, Except.pure]

theorem import_export_block : ∃ s t, Reachable {} s ∧
    s.lines = ["DIE", "GOTO a", "SEND b \"c d\""] ∧
    s.exportFile "p" .block .bytecode = ⟨.ok "p.bc", t⟩ ∧
    ∃ attended, t.importFile "p.bc" = .ok attended ∧ attended.result = .ok ⟨2, none⟩ ∧
      attended.session.lines =
        ["DIE", "GOTO a", "GOTO a", "SEND b \"c d\"", "SEND b \"c d\""] := by
  let first : Line := .compiled "GOTO a" [4, 36, 2, 97, 0, 4] [.word]
  let second : Line := .compiled "SEND b \"c d\"" [9, 38, 2, 98, 0, 4, 99, 32, 100, 0, 9]
    [.word, .word]
  let operations : List RobotScript.Operation := [.edit (.update ⟨1, 0⟩ "die"),
    .edit (.insert ⟨1, 0⟩ .after "goto a"), .edit (.insert ⟨2, 0⟩ .after "send b \"c d\""),
    .gotoLine 2, .placeMark .start, .gotoLine 3, .placeMark .stop]
  let empty := opened [0xFF, 0] .unavailable
  have run : (operations.foldlM Editor.perform empty.editor).map
      (fun e => (e.script.lines, e.script.regionLines .block, e.script.cursor.line,
        e.script.programSize, ({ empty with editor := e }.exportFile "p" .block .bytecode).result)) =
      .ok ([.compiled "DIE" [1, 1, 1] [], first, second], [first, second], 3, 22, .ok "p.bc") := by
    decide +kernel
  rcases map_eq_ok.mp run with ⟨e, edited, shown⟩
  simp only [Prod.mk.injEq] at shown
  rcases shown with ⟨before, block, cursor, size, exported⟩
  have reached : Reachable {} { empty with editor := e } :=
    (reachable_opened [0xFF, 0] (by simp) .unavailable).edits edited
  have kept := exportFile_editor { empty with editor := e } "p" .block .bytecode
  have assembled : first.Assembled ∧ second.Assembled :=
    ⟨⟨"goto a", ⟨first.bytecode, first.text, first.args⟩, by decide +kernel, by decide, rfl⟩,
      ⟨"send b \"c d\"", ⟨second.bytecode, second.text, second.args⟩, by decide +kernel,
        by decide, rfl⟩⟩
  have clear : first.Clear ∧ second.Clear :=
    ⟨assembled.1.compile_text_iff.mp (by decide +kernel),
      assembled.2.compile_text_iff.mp (by decide +kernel)⟩
  have back := Reachable.import_export (.serve (.exportFile "p" .block .bytecode) reached rfl) block
    (by simpa using assembled) (by simpa using clear) exported rfl (by decide +kernel)
    (by rw [kept, size]; decide)
  rcases back with ⟨attended, new, imported, result, lines, entries, -⟩
  refine ⟨_, _, reached, congrArg (List.map Line.text) before, ?_, attended, imported,
    result (by simp), ?_⟩
  · rw [← exported]
  · have spliced := congrArg (List.map Entry.line) entries
    rw [kept, cursor, List.map_append, List.map_append, lines, List.map_take, List.map_drop]
      at spliced
    rw [Session.lines, Script.lines, spliced]
    change (e.script.lines.take 2 ++ ([first, second] ++ e.script.lines.drop 2)).map Line.text = _
    rw [before]
    rfl

/-- A bare word may hold a quote, and then is shown in quotes that it closes early: the line that
comes back does not even compile. -/
theorem import_export_quote : ∃ s t l, Reachable {} s ∧ s.editor.script.regionLines .program = [l] ∧
    l.Assembled ∧ s.exportFile "p" .program .bytecode = ⟨.ok "p.bc", t⟩ ∧
    ∃ attended, t.importFile "p.bc" = .ok attended ∧
      attended.session.editor.script.lines = [.invalid l.text .ignore, l] := by
  have run : (do
      let s ← (opened [0xFF, 0] .unavailable).serve (.edit (.edit (.update ⟨1, 0⟩ "goto a\"b")))
      let attended ← (s.exportFile "p" .program .bytecode).session.importFile "p.bc"
      return (s.editor.script.lines, (s.exportFile "p" .program .bytecode).result,
        attended.session.editor.script.lines)) = .ok
        ([.compiled "GOTO \"a\"b\"" [6, 36, 4, 97, 34, 98, 0, 6] [.word]], .ok "p.bc",
          [.invalid "GOTO \"a\"b\"" .ignore,
            .compiled "GOTO \"a\"b\"" [6, 36, 4, 97, 34, 98, 0, 6] [.word]]) := by
    decide +kernel
  have assembled : (Line.compiled "GOTO \"a\"b\"" [6, 36, 4, 97, 34, 98, 0, 6] [.word]).Assembled :=
    ⟨"goto a\"b", ⟨[6, 36, 4, 97, 34, 98, 0, 6], "GOTO \"a\"b\"", [.word]⟩, by decide +kernel,
      by decide, rfl⟩
  rcases bind_eq_ok.mp run with ⟨s, typed, run⟩
  rcases bind_eq_ok.mp run with ⟨attended, imported, same⟩
  simp only [pure, Except.pure, Except.ok.injEq, Prod.mk.injEq] at same
  rcases same with ⟨lines, exported, after⟩
  have reached := reachable_opened [0xFF, 0] (by simp) .unavailable
  refine ⟨s, _, _, .serve _ reached typed, lines, assembled, ?_, attended, imported, after⟩
  rw [← exported]

end Session

end RobotScript
