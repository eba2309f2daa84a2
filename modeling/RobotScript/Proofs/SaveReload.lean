import RobotScript.Proofs.StayInStep
import RobotScript.Proofs.WellFormed
/-!
A program that is saved and loaded again. Each line that is saved comes back from its own record,
a remark as the comment that keeps its text.
-/
namespace RobotScript

namespace Line

def isSaved (l : Line) : Bool :=
  match l.validity with
  | .valid | .invalid .comment => true
  | .invalid _ => false

def reloaded (l : Line) : Line :=
  match l.validity with
  | .valid => compiled l.text l.bytecode l.args
  | .invalid _ => compiled (". \"" ++ l.text ++ "\"") (encodeComment l.text) [.str]

variable {l : Line}

theorem programBytes_eq_nil (unsaved : l.isSaved = false) : l.programBytes = [] := by
  unfold isSaved at unsaved
  unfold programBytes
  split at unsaved <;> simp_all

theorem bytecode_reloaded (saved : l.isSaved = true) : l.reloaded.bytecode = l.programBytes := by
  unfold isSaved at saved
  unfold reloaded programBytes
  split at saved <;> simp_all [compiled]

theorem validity_reloaded (l : Line) : l.reloaded.validity = .valid := by
  unfold reloaded
  split <;> rfl

theorem programBytes_reloaded (saved : l.isSaved = true) :
    l.reloaded.programBytes = l.programBytes := by
  rw [← bytecode_reloaded saved, programBytes, validity_reloaded]

theorem InStep.decode_programBytes (fits : l.InStep) (saved : l.isSaved = true) :
    decode l.programBytes = .ok ⟨l.reloaded.text, l.programBytes.length, l.reloaded.args⟩ := by
  cases fits with
  | compiled read => exact read
  | @invalid text d written short =>
    cases d with
    | comment =>
      have short : Text.size text ≤ 252 := Nat.le_trans short (by decide)
      have read := decode_encodeComment short []
      rwa [List.append_nil] at read
    | ignore | delete => cases saved

theorem lineOfRecord_reloaded (saved : l.isSaved = true) :
    Editor.lineOfRecord ⟨l.programBytes, l.reloaded.text, l.programBytes.length,
      l.reloaded.args⟩ = l.reloaded := by
  rw [Editor.lineOfRecord, ← bytecode_reloaded saved]
  unfold reloaded
  split <;> rfl

end Line

theorem splitRecords_append {bs : Bytes} {d : Decoded} (read : decode bs = .ok d)
    (whole : d.consumed = bs.length) (rest : Bytes) :
    splitRecords (bs ++ rest) = (⟨bs, d⟩ :: (splitRecords rest).1, (splitRecords rest).2) := by
  have more := decode_append read rest
  cases bs with
  | nil => cases read
  | cons b tail =>
    rw [List.cons_append] at more ⊢
    rw [splitRecords, more]
    dsimp only
    rw [whole, ← List.cons_append, List.take_left' rfl]
    simp

theorem splitRecords_epilogue : splitRecords [programEpilogue] = ([], [programEpilogue]) := by
  have ended : decode [programEpilogue] = .error .endOfProgram := rfl
  rw [splitRecords, ended]

theorem splitRecords_flatMap {ls : List Line} (fits : ∀ l ∈ ls, l.InStep)
    (saved : ∀ l ∈ ls, l.isSaved = true) (rest : Bytes) :
    (splitRecords (ls.flatMap Line.programBytes ++ rest)).1.map Editor.lineOfRecord =
      ls.map Line.reloaded ++ (splitRecords rest).1.map Editor.lineOfRecord := by
  induction ls with
  | nil => rfl
  | cons l ls ih =>
    have read := (fits l List.mem_cons_self).decode_programBytes (saved l List.mem_cons_self)
    have others := ih (fun x mem => fits x (List.mem_cons_of_mem l mem))
      (fun x mem => saved x (List.mem_cons_of_mem l mem))
    have back := Line.lineOfRecord_reloaded (saved l List.mem_cons_self)
    rw [List.flatMap_cons, List.append_assoc, splitRecords_append read rfl, List.map_cons, others,
      back]
    rfl

namespace Script

def kept (s : Script) : List Line :=
  if s.lines.getLast?.any Line.isBlank then s.lines.dropLast else s.lines

/-- The lines of a program that are saved. -/
def saved (s : Script) : List Line := s.kept.filter Line.isSaved

variable {s : Script} {es : List Entry}

theorem flatten_eq (s : Script) :
    s.flatten = programPrologue :: (s.kept.flatMap Line.programBytes ++ [programEpilogue]) := by
  unfold Script.flatten Script.kept
  cases last : s.lines.getLast? with
  | none =>
    rw [List.getLast?_eq_none_iff] at last
    rw [last]
    rfl
  | some l => rfl

theorem mem_lines_of_mem_kept {l : Line} (mem : l ∈ s.kept) : l ∈ s.lines := by
  unfold kept at mem
  split at mem
  · exact List.dropLast_subset _ mem
  · exact mem

theorem inStep_kept (fits : ∀ l ∈ s.lines, l.InStep) : ∀ l ∈ s.kept, l.InStep :=
  fun l mem => fits l (mem_lines_of_mem_kept mem)

theorem flatMap_filter_isSaved (ls : List Line) :
    (ls.filter Line.isSaved).flatMap Line.programBytes = ls.flatMap Line.programBytes := by
  induction ls with
  | nil => rfl
  | cons l ls ih =>
    by_cases saved : l.isSaved
    · rw [List.filter_cons_of_pos saved, List.flatMap_cons, List.flatMap_cons, ih]
    · have empty := Line.programBytes_eq_nil (Bool.not_eq_true _ ▸ saved)
      rw [List.filter_cons_of_neg saved, List.flatMap_cons, empty, ih]
      rfl

theorem length_flatMap_programBytes {ls : List Line} (fits : ∀ l ∈ ls, l.InStep) :
    (ls.flatMap Line.programBytes).length = Line.sizeOfAll ls := by
  induction ls with
  | nil => rfl
  | cons l ls ih =>
    have others := ih fun x mem => fits x (List.mem_cons_of_mem l mem)
    rw [List.flatMap_cons, List.length_append, others,
      (fits l List.mem_cons_self).length_programBytes, Line.sizeOfAll]

theorem Lists.lines (lists : s.Lists es) : s.lines = es.map (·.line) := by
  rw [Script.lines, lists.entries]

/-- The saved form takes the bytes that are counted, but for those of a blank last line. -/
theorem length_flatten (size : s.totalSize = Line.sizeOfAll s.lines)
    (fits : ∀ l ∈ s.lines, l.InStep) :
    s.flatten.length + (if s.lines.getLast?.any Line.isBlank then 3 else 0) = s.programSize := by
  have counted : s.flatten.length = Line.sizeOfAll s.kept + 2 := by
    rw [flatten_eq, List.length_cons, List.length_append,
      length_flatMap_programBytes (inStep_kept fits)]
    rfl
  rw [counted, Script.programSize, size, framing]
  unfold Script.kept
  split
  next blank =>
    rcases (Option.any_eq_true _ _).mp blank with ⟨l, last, empty⟩
    rcases List.getLast?_eq_some_iff.mp last with ⟨init, split⟩
    have fit := fits l (List.mem_of_getLast? last)
    have three : l.size = 3 := by
      have text : l.text = "" := by simpa [Line.isBlank] using empty
      rcases fit.text_eq_empty_iff.mp text with ⟨valid, bytes⟩
      rw [(fit.isFaithful.valid valid).1, bytes]
      rfl
    rw [split, List.dropLast_concat, Line.sizeOfAll_append]
    simp [Line.sizeOfAll, three]
  next => rfl

end Script

namespace Editor

variable {c : Config} {e : Editor}

theorem records_flatten {s : Script} (fits : ∀ l ∈ s.lines, l.InStep) :
    (splitRecords (programBody s.flatten)).1.map lineOfRecord = s.saved.map Line.reloaded := by
  have kept := Script.inStep_kept fits
  have body : programBody s.flatten =
      s.saved.flatMap Line.programBytes ++ [programEpilogue] := by
    rw [Script.flatten_eq, programBody, if_pos rfl, Script.saved, Script.flatMap_filter_isSaved]
  rw [body, splitRecords_flatMap, splitRecords_epilogue]
  · simp
  · intro l mem
    exact kept l (List.mem_filter.mp mem).1
  · intro l mem
    exact (List.mem_filter.mp mem).2

theorem lines_load (room : 5 ≤ e.config.maxSize) (program : Bytes) :
    (e.load program).script.lines =
      if (splitRecords (programBody program)).1.map lineOfRecord = [] then [.blank]
      else (splitRecords (programBody program)).1.map lineOfRecord := by
  rcases Script.lists_ofLines e.config.maxSize
    ((splitRecords (programBody program)).1.map lineOfRecord) with ⟨es, same, lists⟩
  unfold Editor.load
  dsimp only
  split
  next h first =>
    have started := lists.start rfl first
    rw [started.lines, same, if_neg]
    rw [← same, List.map_eq_nil_iff]
    exact started.ne_nil
  next first =>
    have none := lists.eq_nil_of_first? first
    rw [none] at lists same
    rcases lists.seed rfl room with ⟨h, sound, -⟩
    rw [sound.lines, ← same]
    rfl

/-- Saving and loading again: the saved lines come back in order, each from its own bytes, and a
blank one where there are none. -/
theorem Reachable.load_flatten (reached : Reachable c e) (room : 5 ≤ c.maxSize) (target : Editor)
    (targetRoom : 5 ≤ target.config.maxSize) :
    (target.load e.script.flatten).script.lines =
        (if e.script.saved = [] then [.blank] else e.script.saved.map Line.reloaded) ∧
      (∀ l ∈ e.script.saved, l.reloaded.validity = .valid ∧
        l.reloaded.bytecode = l.programBytes) ∧
      e.script.flatten.length + (if e.script.lines.getLast?.any Line.isBlank then 3 else 0) =
        e.script.programSize := by
  have fits : ∀ l ∈ e.script.lines, l.InStep := fun _ mem => reached.inStep_of_mem_lines mem
  rcases (reached.inOrder room).script.sound with ⟨es, sound⟩
  refine ⟨?_, ?_, ?_⟩
  · rw [lines_load targetRoom, records_flatten fits]
    simp only [List.map_eq_nil_iff]
  · intro l mem
    exact ⟨l.validity_reloaded, Line.bytecode_reloaded (List.mem_filter.mp mem).2⟩
  · apply Script.length_flatten _ fits
    rw [sound.lines]
    exact sound.size

theorem load_flatten_remark : ∃ e, Reachable { defaultInvalid := .comment } e ∧
    e.script.lines = [.invalid "zz" .comment] ∧
    ((Editor.new {}).load e.script.flatten).script.lines =
      [.compiled ". \"zz\"" (encodeComment "zz") [.str]] := by
  have written : ((Editor.new { defaultInvalid := .comment }).perform
      (.edit (.update ⟨1, 0⟩ "zz"))).map (·.script.lines) = .ok [.invalid "zz" .comment] := by
    decide +kernel
  rcases map_eq_ok.mp written with ⟨e, done, lines⟩
  have reached : Reachable { defaultInvalid := .comment } e := .perform _ .new done
  have loaded := (Reachable.load_flatten reached (by decide) (.new {}) (by decide)).1
  have saved : e.script.saved = [.invalid "zz" .comment] := by
    rw [Script.saved, Script.kept, lines]
    rfl
  rw [saved] at loaded
  exact ⟨e, reached, lines, loaded⟩

end Editor

end RobotScript
