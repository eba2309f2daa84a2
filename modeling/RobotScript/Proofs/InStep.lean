import RobotScript.Proofs.Record
import RobotScript.Proofs.Writing
/-!
Lines whose text, record and argument kinds fit together: a record reads back as the text, and a
text that does not compile is neither empty nor too long. Whatever is written into a line is of
this kind.
-/
namespace RobotScript

namespace Line

def longest : Disposition → Nat
  | .comment => maxCommentText
  | .ignore | .delete => maxText

/-- Whether the five fields of a line fit together. -/
inductive InStep : Line → Prop where
  | compiled {text : String} {bytecode : Bytes} {args : List ArgKind} :
    decode bytecode = .ok ⟨text, bytecode.length, args⟩ → InStep (compiled text bytecode args)
  | invalid {text : String} {d : Disposition} :
    text ≠ "" → Text.size text ≤ longest d → InStep (invalid text d)

variable {l : Line}

theorem longest_le (d : Disposition) : longest d ≤ maxText := by
  cases d <;> decide

theorem inStep_blank : blank.InStep := by
  have made : Statement.blank.record? = some (Statement.frame [Instruction.blank.opcode]) := rfl
  have read := decode_record Statement.wellTyped_blank made []
  rw [List.append_nil] at read
  exact .compiled read

theorem decode_bytecode {text : String} {c : Compiled} (h : compile text = .ok c) :
    decode c.bytecode = .ok ⟨c.display, c.bytecode.length, c.args⟩ := by
  obtain ⟨s, bytes, -, typed, made, rfl⟩ := compile_eq_ok h
  have read := decode_record typed made []
  rw [List.append_nil] at read
  exact read

theorem InStep.eq_invalid (h : l.InStep) {d : Disposition} (standing : l.validity = .invalid d) :
    l = .invalid l.text d ∧ l.text ≠ "" ∧ Text.size l.text ≤ longest d := by
  cases h with
  | compiled => cases standing
  | invalid written short =>
    cases standing
    exact ⟨rfl, written, short⟩

theorem InStep.length_programBytes (h : l.InStep) : l.programBytes.length = l.size := by
  cases h with
  | compiled => rfl
  | @invalid text d =>
    cases d with
    | comment => exact length_encodeComment text
    | ignore | delete => rfl

theorem InStep.text_eq_empty_iff (h : l.InStep) :
    l.text = "" ↔ l.validity = .valid ∧ l.bytecode = [1, 47, 1] := by
  cases h with
  | invalid written => simp [Line.invalid, written]
  | @compiled text bytecode args read =>
    simp only [Line.compiled, true_and]
    constructor
    · intro empty
      exact bytes_of_decode_empty read rfl empty
    · intro blank
      have known : decode [1, 47, 1] = .ok ⟨"", 3, []⟩ := rfl
      rw [blank, known] at read
      exact (congrArg Decoded.display (Except.ok.inj read)).symm

theorem three_le_commentSize (text : String) : 3 ≤ commentSize text :=
  Nat.le_add_left_of_le (by decide)

end Line

theorem compile_empty : compile "" = .ok ⟨[1, 47, 1], "", []⟩ := rfl

namespace Editor

theorem inStep_invalidLine (e : Editor) {text : String} (h : text ≠ "") (d : Disposition)
    (old : Nat) : (e.invalidLine text d old).InStep := by
  have kept : Text.cut Line.maxText text ≠ "" := Text.cut_ne_empty (by decide) h
  have short : Text.size (Text.cut Line.maxText text) ≤ Line.maxText := Text.size_cut_le _ _
  cases d with
  | ignore | delete => exact .invalid kept short
  | comment =>
    dsimp only [invalidLine]
    split
    · exact .invalid (Text.cut_ne_empty (by decide) kept) (Text.size_cut_le _ _)
    · exact .invalid kept short

theorem admits_invalidLine (e : Editor) (text : String) (d : Disposition) (prior : Line) :
    e.script.Admits prior (e.invalidLine text d prior.size) := by
  cases d with
  | ignore | delete => exact .inl rfl
  | comment =>
    dsimp only [invalidLine]
    split
    next room => exact .inr ⟨Line.three_le_commentSize _, room⟩
    next => exact .inl rfl

/-- What writing a text that calls no macro leads to: a refusal that changes nothing, or one line
that is let in and whose parts fit together. -/
theorem writePlain_cases (e : Editor) (h : Handle) (prior : Line) (text : String) :
    (∃ err, e.writePlain h prior text = ⟨.error err, e⟩) ∨
    ∃ outcome line, line.InStep ∧ e.script.Admits prior line ∧
      e.writePlain h prior text = ⟨.ok outcome, e.setLine h line⟩ := by
  unfold writePlain
  split
  next err failed =>
    have written : text ≠ "" := by
      rintro rfl
      simp [compile_empty] at failed
    exact .inr ⟨_, _, e.inStep_invalidLine written _ _, e.admits_invalidLine _ _ _, rfl⟩
  next c made =>
    split
    next long =>
      have written : c.display ≠ "" := by
        intro empty
        rw [empty] at long
        contradiction
      exact .inr ⟨_, _, e.inStep_invalidLine written _ _, e.admits_invalidLine _ _ _, rfl⟩
    next =>
      split
      next err _ => exact .inl ⟨err, rfl⟩
      next room =>
        have read := Line.decode_bytecode made
        exact .inr ⟨_, _, .compiled read, .inr ⟨three_le_consumed read, room⟩, rfl⟩

theorem suppress_cases (e : Editor) (h : Handle) (prior : Line) :
    (∃ err, e.suppress h prior = ⟨.error err, e⟩) ∨
    ∃ outcome line, line.InStep ∧ e.script.Admits prior line ∧
      e.suppress h prior = ⟨.ok outcome, e.setLine h line⟩ := by
  unfold suppress
  obtain ⟨err, refused⟩ | ⟨outcome, line, fits, admitted, written⟩ := writePlain_cases e h prior ""
  · rw [refused]
    exact .inl ⟨err, rfl⟩
  · rw [written]
    exact .inr ⟨.suppressed, line, fits, admitted, rfl⟩

/-- What writing a text leads to, at whatever depth: a refusal that changes nothing, one line that is
let in and whose parts fit together, or the expansion of a macro whose lines are written one level
further down. -/
theorem writeWith_cases {levels : Nat} {e : Editor} {h : Handle} {text : String}
    {edited : Edited Outcome} (done : writeWith levels e h text = .ok edited) :
    (∃ err, edited = ⟨.error err, e⟩) ∨
    (∃ prior outcome line, e.script.get? h = some prior ∧ line.InStep ∧
      e.script.Admits prior line ∧ edited = ⟨.ok outcome, e.setLine h line⟩) ∨
    ∃ below prior number t, levels = below + 1 ∧ e.script.get? h = some prior ∧
      e.script.lineNumber? h = some number ∧
      expandTemplate (writeWith below) e h prior number t (callOf text).args = .ok edited := by
  have write := writeCase levels e h text
  generalize writeWith levels e h text = result at write done
  cases write with
  | missing | unknown | unnumbered =>
    cases done
    exact .inl ⟨_, rfl⟩
  | plain found =>
    cases done
    obtain ⟨err, refused⟩ | ⟨outcome, line, fits, admitted, written⟩ := writePlain_cases e h _ text
    · exact .inl ⟨err, refused⟩
    · exact .inr (.inl ⟨_, outcome, line, found, fits, admitted, written⟩)
  | held found =>
    cases done
    obtain ⟨err, refused⟩ | ⟨outcome, line, fits, admitted, blank⟩ := suppress_cases e h _
    · exact .inl ⟨err, refused⟩
    · exact .inr (.inl ⟨_, outcome, line, found, fits, admitted, blank⟩)
  | endless => cases done
  | expanded levels found _ _ _ numbered =>
    exact .inr (.inr ⟨_, _, _, _, levels, found, numbered, done⟩)

theorem setDisposition_cases (e : Editor) (h : Handle) (d : Disposition) :
    (∃ err, e.setDisposition h d = ⟨.error err, e⟩) ∨
    (e.setDisposition h d = ⟨.ok .valid, e⟩) ∨
    ∃ old line, e.script.get? h = some old ∧ (old.InStep → line.InStep) ∧
      e.script.Admits old line ∧ e.setDisposition h d = ⟨.ok (.invalid d), e.setLine h line⟩ := by
  unfold setDisposition
  cases found : e.script.get? h with
  | none => exact .inl ⟨_, rfl⟩
  | some old =>
    dsimp only
    cases standing : old.validity with
    | valid => exact .inr (.inl rfl)
    | invalid prior =>
      have kept : ∀ d, d ≠ .comment → old.InStep →
          Line.InStep { old with size := 0, validity := .invalid d } := by
        intro d leftOut fits
        obtain ⟨same, written, short⟩ := fits.eq_invalid standing
        have short := Nat.le_trans short (Line.longest_le prior)
        rw [same]
        cases d with
        | comment => contradiction
        | ignore => exact Line.InStep.invalid (d := .ignore) written short
        | delete => exact Line.InStep.invalid (d := .delete) written short
      cases d with
      | ignore => exact .inr (.inr ⟨old, _, rfl, kept .ignore (by simp), .inl rfl, rfl⟩)
      | delete => exact .inr (.inr ⟨old, _, rfl, kept .delete (by simp), .inl rfl, rfl⟩)
      | comment =>
        dsimp only
        split
        next room =>
          refine .inr (.inr ⟨old, _, rfl, fun fits => ?_,
            .inr ⟨Line.three_le_commentSize _, room⟩, rfl⟩)
          obtain ⟨same, written, -⟩ := fits.eq_invalid standing
          rw [same]
          change (Line.invalid (Text.cut Line.maxCommentText old.text) .comment).InStep
          exact .invalid (Text.cut_ne_empty (by decide) written) (Text.size_cut_le _ _)
        next err _ => exact .inl ⟨err, rfl⟩

end Editor

theorem decode_of_mem_splitRecords {bs : Bytes} {r : Record} (h : r ∈ (splitRecords bs).1) :
    decode r.bytes = .ok r.decoded ∧ r.decoded.consumed = r.bytes.length := by
  fun_induction splitRecords bs with
  | case1 => contradiction
  | case2 b rest d read records left split ih =>
    rcases List.mem_cons.mp h with rfl | h
    · exact ⟨decode_take read, (length_take_consumed read).symm⟩
    · rw [split] at ih
      exact ih h
  | case3 => contradiction

theorem Editor.inStep_lineOfRecord {bs : Bytes} {r : Record} (h : r ∈ (splitRecords bs).1) :
    (Editor.lineOfRecord r).InStep := by
  obtain ⟨read, whole⟩ := decode_of_mem_splitRecords h
  exact .compiled (by rw [read, ← whole])

end RobotScript
