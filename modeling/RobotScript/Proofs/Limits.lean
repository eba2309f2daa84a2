import Mathlib.Data.Nat.Digits.Defs
import RobotScript.Proofs.Capacity
import RobotScript.Proofs.Loading
import RobotScript.Proofs.RoundTrip
/-!
The limits that a loaded program keeps to. Loading takes every record as it is, so that the program
is as long as its records are together, and each text as long as the record makes it: less than three
times as long as the record. Programs that were saved within the limits load within them.
-/
namespace RobotScript

namespace Chars

variable {cs : List Char} {n : Nat}

theorem width_eq_length (ascii : ∀ c ∈ cs, c.toNat < 0x80) : width cs = cs.length := by
  induction cs with
  | nil => rfl
  | cons c cs ih =>
    have narrow : c.utf8Size = 1 := by
      rw [Char.utf8Size_eq_one_iff, UInt32.le_iff_toNat_le]
      exact Nat.le_of_lt_succ (ascii c List.mem_cons_self)
    have others := ih fun d mem => ascii d (List.mem_cons_of_mem c mem)
    rw [width_cons, narrow, others, List.length_cons, Nat.add_comm]

theorem width_decimal_le (small : n < 100000) : width (decimal n) ≤ 5 := by
  have ascii : ∀ c ∈ decimal n, c.toNat < 0x80 := by
    intro c mem
    have digit := Char.isDigit_iff_toNat.mp (isDigit_of_mem_decimal mem)
    exact Nat.lt_of_le_of_lt digit.2 (by decide)
  rw [width_eq_length ascii]
  exact Nat.toDigits_length 10 n 5 (by decide) small

theorem width_decimalInt_le {z : Int} (small : z.natAbs < 100000) : width (decimalInt z) ≤ 6 := by
  cases z with
  | ofNat n => exact Nat.le_succ_of_le (width_decimal_le small)
  | negSucc n =>
    have minus : '-'.utf8Size = 1 := by decide
    have digits := width_decimal_le (n := n + 1) small
    rw [decimalInt, width_cons, minus]
    omega

/-! ### Lossy readings -/

theorem width_begin_le (b : Nat) :
    width ((begin b).1.map (·.getD '\uFFFD')) + (if (begin b).2.isSome then 3 else 0) ≤ 3 := by
  unfold begin
  split
  next small =>
    have narrow : ∀ b < 0x80, (Char.ofNat b).utf8Size = 1 := by decide
    simp [narrow b small]
  next =>
    cases lead? b with
    | none => decide
    | some p => simp

theorem width_step_le (pending : Option Partial) (b : Nat) :
    width ((step pending b).1.map (·.getD '\uFFFD')) + (if (step pending b).2.isSome then 3 else 0) ≤
      3 + if pending.isSome then 3 else 0 := by
  have fresh := width_begin_le b
  unfold step
  cases pending with
  | none => exact fresh
  | some p =>
    dsimp only
    split
    · split
      · have narrow := (Char.ofNat (p.bits * 64 + (b - 0x80))).utf8Size_le_four
        simp
        omega
      · simp
    · have shown : '\uFFFD'.utf8Size = 3 := by decide
      rw [List.map_cons, width_cons, Option.getD_none, shown, Option.isSome_some, if_pos rfl]
      dsimp only
      omega

/-- What stands for an ill-formed part is three bytes wide, and no part is shown wider than that for
each of its bytes. -/
theorem width_decodeLossy_le (bs : Bytes) : width (decodeLossy bs) ≤ 3 * bs.length := by
  have bound : ∀ pending, width ((partsFrom pending bs).map (·.getD '\uFFFD')) ≤
      3 * bs.length + if pending.isSome then 3 else 0 := by
    induction bs with
    | nil =>
      intro pending
      cases pending with
      | none => decide
      | some p => exact Nat.le_of_eq (by simp [partsFrom]; decide)
    | cons b bs ih =>
      intro pending
      have here := width_step_le pending b.toNat
      have rest := ih (step pending b.toNat).2
      rw [partsFrom, List.map_append, width_append, List.length_cons]
      omega
  exact bound none

end Chars

/-! ### The text of a record -/

open Chars (width)

theorem Color.width_print_le (color : Nat) : width (print color) ≤ 3 := by
  have narrow : ∀ n, (digit n).utf8Size = 1 := by
    have all : ∀ n < 16, (Nat.digitChar n).toUpper.utf8Size = 1 := by decide
    exact fun n => all _ (Nat.mod_lt n (by decide))
  unfold print
  split
  · decide
  split
  · simp [narrow]
    decide
  split
  · simp [narrow]
    decide
  · simp [narrow]
    decide

theorem Operand.natAbs_signed_lt (w : UInt16) : (signed w).natAbs < 100000 := by
  have bound := w.toNat_lt
  unfold signed
  split <;> omega

theorem Operand.width_render_number_le (kind : ArgKind) (w : UInt16) :
    width ((number w).render kind) ≤ 6 := by
  have decimal := Chars.width_decimalInt_le (natAbs_signed_lt w)
  cases kind with
  | number | word | str => exact decimal
  | color =>
    unfold render
    dsimp only
    split
    · exact Nat.le_trans (Color.width_print_le _) (by decide)
    · exact decimal
  | character =>
    unfold render
    dsimp only
    split
    next printable =>
      have narrow : ∀ n < 127, (Char.ofNat n).utf8Size = 1 := by decide
      have tick : '\''.utf8Size = 1 := by decide
      simp [narrow _ printable.2.1, tick]
    next =>
      have bound := w.toNat_lt
      exact Nat.le_succ_of_le (Chars.width_decimal_le (by omega))

theorem Operand.width_render_text_le (kind : ArgKind) (cs : List Char) :
    width ((text cs).render kind) ≤ width cs + 2 := by
  have mark : '"'.utf8Size = 1 := by decide
  have quoted : width (quote cs) = width cs + 2 := by
    simp [quote, mark]
    omega
  cases kind with
  | word =>
    unfold render
    dsimp only
    split
    · exact Nat.le_add_right _ _
    · exact Nat.le_of_eq quoted
  | number | str | character | color => exact Nat.le_of_eq quoted

namespace Field

variable {kinds : List ArgKind} {fields : List Field}

theorem width_render_lt (kind : ArgKind) (field : Field) :
    width (field.operand.render kind) < 3 * field.bytes.length := by
  cases field with
  | word w => exact Nat.lt_of_le_of_lt (Operand.width_render_number_le kind w) (by simp [bytes])
  | text raw =>
    have read := Chars.width_decodeLossy_le raw
    have shown := Operand.width_render_text_le kind (Chars.decodeLossy raw)
    have size : (text raw).bytes.length = raw.length + 2 := by simp [bytes]
    rw [operand, size]
    omega

theorem width_arguments_le (fits : List.Forall₂ Fits kinds fields) :
    width (Statement.arguments kinds (fields.map operand)) ≤ 3 * (fields.flatMap bytes).length := by
  induction fits with
  | nil => exact Nat.zero_le _
  | @cons kind field _ _ _ _ ih =>
    have here := width_render_lt kind field
    have blank : ' '.utf8Size = 1 := by decide
    rw [List.map_cons, Statement.arguments_cons, List.flatMap_cons, List.length_append,
      Chars.width_cons, Chars.width_append, blank]
    omega

end Field

theorem LaysOut.width_render_le {i : Instruction} {fields : List Field} {bs : Bytes}
    (h : LaysOut i fields bs) :
    width (Statement.render ⟨i, fields.map Field.operand⟩) + 4 ≤ 3 * bs.length := by
  rcases h with ⟨known, fits, -, rfl⟩
  have named : ∀ i ∈ Instruction.all, width i.name ≤ 5 := by decide
  have name := named i known
  have arguments := Field.width_arguments_le fits
  rw [Statement.render_eq, Chars.width_append, Statement.length_frame, List.length_cons]
  dsimp only
  omega

theorem Record.Reads.size_display_le {r : Record} (reads : r.Reads) :
    Text.size r.decoded.display + 4 ≤ 3 * r.bytes.length := by
  rcases LaysOut.exists_of_decode reads.1 with ⟨i, fields, laidOut⟩
  rw [reads.2, List.take_length] at laidOut
  have read := laidOut.decode_append []
  rw [List.append_nil, reads.1] at read
  rw [Except.ok.inj read, Text.size, String.toList_ofList]
  exact laidOut.width_render_le

/-! ### Loading -/

/-- Whether a script keeps to the limits of edits: there is room for the program, and no text is
longer than that of a line may be. -/
structure Script.Limited (s : Script) : Prop where
  size : s.programSize ≤ s.capacity
  texts : ∀ l ∈ s.lines, Text.size l.text ≤ Line.maxText

namespace Editor

variable {c : Config} {e : Editor} {program : Bytes}

def recordsOf (program : Bytes) : List Record := (splitRecords (programBody program)).1

theorem length_joinRecords_le (program : Bytes) :
    (joinRecords (recordsOf program)).length ≤ program.length := by
  have whole := congrArg List.length (joinRecords_splitRecords (programBody program))
  have body : (programBody program).length ≤ program.length := by
    unfold programBody
    split
    · split <;> simp
    · exact Nat.le_refl _
  rw [List.length_append] at whole
  unfold recordsOf
  omega

theorem sizeOfAll_records (records : List Record) :
    Line.sizeOfAll (records.map lineOfRecord) = (joinRecords records).length := by
  induction records with
  | nil => rfl
  | cons r records ih =>
    rw [List.map_cons, Line.sizeOfAll, ih, joinRecords_cons, List.length_append]
    rfl

theorem lines_load_records (room : 5 ≤ e.config.maxSize) (program : Bytes) :
    (e.load program).script.lines =
      if recordsOf program = [] then [.blank] else (recordsOf program).map lineOfRecord := by
  have lines := lines_load room program
  simp only [List.map_eq_nil_iff] at lines
  exact lines

theorem programSize_load (room : 5 ≤ e.config.maxSize) (program : Bytes) :
    (e.load program).script.programSize =
      if recordsOf program = [] then 5 else (joinRecords (recordsOf program)).length + 2 := by
  rcases kind_load e program with ⟨capacity, ⟨es, sound⟩ | weightless⟩
  · have size : (e.load program).script.totalSize =
        Line.sizeOfAll (e.load program).script.lines := by
      rw [sound.lines]
      exact sound.size
    rw [Script.programSize, size, lines_load_records room]
    split
    · rfl
    · exact congrArg (· + 2) (sizeOfAll_records _)
  · have full := weightless.full
    rw [capacity] at full
    omega

theorem load_limited_iff (room : 5 ≤ e.config.maxSize) (program : Bytes) :
    (e.load program).script.Limited ↔
      (joinRecords (recordsOf program)).length + 2 ≤ e.config.maxSize ∧
        ∀ r ∈ recordsOf program, Text.size r.decoded.display ≤ Line.maxText := by
  have size := programSize_load room program
  have lines := lines_load_records room program
  have capacity := (kind_load e program).1
  by_cases none : recordsOf program = []
  · rw [if_pos none] at size lines
    refine iff_of_true ⟨by omega, ?_⟩ ⟨?_, ?_⟩
    · rw [lines]
      simp [Line.blank, Line.compiled, Text.size]
    · rw [none]
      exact Nat.le_trans (by decide) room
    · simp [none]
  · rw [if_neg none] at size lines
    constructor
    · rintro ⟨fits, texts⟩
      rw [lines, List.forall_mem_map] at texts
      exact ⟨by omega, texts⟩
    · rintro ⟨fits, texts⟩
      refine ⟨by omega, ?_⟩
      rw [lines, List.forall_mem_map]
      exact texts

theorem size_reloaded_le {l : Line} (fits : l.InStep) (saved : l.isSaved = true)
    (short : Text.size l.text ≤ Line.maxText) : Text.size l.reloaded.text ≤ Line.maxText := by
  cases fits with
  | compiled => exact short
  | @invalid text d _ remark =>
    cases d with
    | comment =>
      have front : width (". \"").toList = 3 := by decide
      have back : width ("\"").toList = 1 := by decide
      have marks : Text.size (". \"" ++ text ++ "\"") = Text.size text + 4 := by
        rw [Text.size, String.toList_append, String.toList_append, Chars.width_append,
          Chars.width_append, front, back, Text.size]
        omega
      have remark : Text.size text ≤ Line.maxCommentText := remark
      have room : Line.maxCommentText + 4 = Line.maxText := rfl
      change Text.size (". \"" ++ text ++ "\"") ≤ Line.maxText
      omega
    | ignore | delete => cases saved

theorem joinRecords_flatten {s : Script} (fits : ∀ l ∈ s.lines, l.InStep) :
    s.flatten = programPrologue :: (joinRecords (recordsOf s.flatten) ++ [programEpilogue]) := by
  have records : (recordsOf s.flatten).map lineOfRecord = s.saved.map Line.reloaded :=
    records_flatten fits
  have bytes : (s.saved.map Line.reloaded).flatMap Line.programBytes =
      s.saved.flatMap Line.programBytes := by
    rw [List.flatMap_map]
    apply List.flatMap_congr
    intro l mem
    exact Line.programBytes_reloaded (List.mem_filter.mp mem).2
  rw [← flatMap_lineOfRecord, records, bytes, Script.saved, Script.flatMap_filter_isSaved]
  exact s.flatten_eq

theorem Reachable.load_flatten_limited (reached : Reachable c e) (room : 5 ≤ c.maxSize)
    (limited : e.script.Limited) (target : Editor) (targetRoom : 5 ≤ target.config.maxSize)
    (fits : e.script.programSize ≤ target.config.maxSize) :
    (target.load e.script.flatten).script.Limited := by
  have inStep : ∀ l ∈ e.script.lines, l.InStep := fun _ mem => reached.inStep_of_mem_lines mem
  have length := congrArg List.length (joinRecords_flatten inStep)
  have counted := (reached.load_flatten room target targetRoom).2.2
  rw [List.length_cons, List.length_append, List.length_singleton] at length
  refine (load_limited_iff targetRoom _).mpr ⟨by omega, ?_⟩
  intro r mem
  have listed : lineOfRecord r ∈ e.script.saved.map Line.reloaded := by
    rw [← records_flatten inStep]
    exact List.mem_map_of_mem mem
  rcases List.mem_map.mp listed with ⟨l, kept, back⟩
  rcases List.mem_filter.mp kept with ⟨among, saved⟩
  have inLines : l ∈ e.script.lines := Script.mem_lines_of_mem_kept among
  have short := size_reloaded_le (inStep l inLines) saved (limited.texts l inLines)
  rw [back] at short
  exact short

/-- A program loads within the limits just if its records are within them. So do those that were
saved within them, and those that have room and no record of more than 81 bytes. -/
theorem load_limited (e : Editor) (room : 5 ≤ e.config.maxSize) :
    (∀ program, (e.load program).script.capacity = e.config.maxSize ∧
      ((e.load program).script.Limited ↔
        (joinRecords (recordsOf program)).length + 2 ≤ e.config.maxSize ∧
          ∀ r ∈ recordsOf program, Text.size r.decoded.display ≤ 240)) ∧
    (∀ program, program.length + 2 ≤ e.config.maxSize →
      (∀ r ∈ recordsOf program, r.bytes.length ≤ 81) → (e.load program).script.Limited) ∧
    ∀ c origin, Reachable c origin → 5 ≤ c.maxSize → origin.script.Limited →
      origin.script.programSize ≤ e.config.maxSize →
      (e.load origin.script.flatten).script.Limited := by
  refine ⟨fun program => ⟨(kind_load e program).1, load_limited_iff room program⟩, ?_, ?_⟩
  · intro program fits short
    have length := length_joinRecords_le program
    refine (load_limited_iff room program).mpr ⟨by omega, ?_⟩
    intro r mem
    have reads : r.Reads := decode_of_mem_splitRecords mem
    have shown := reads.size_display_le
    have bytes := short r mem
    have longest : Line.maxText = 240 := rfl
    omega
  · intro c origin reached originRoom limited fits
    exact reached.load_flatten_limited originRoom limited e room fits

/-- Loading asks neither for room nor for short texts: nine bytes of records are loaded where there
is room for six, and a remark of 250 letters becomes a text of 254 bytes. -/
theorem load_beyond_limits :
    ((Editor.new { maxSize := 8 }).load [0xFF, 1, 0, 1, 1, 0, 1, 1, 0, 1, 0]).script.programSize =
      11 ∧
    ((Editor.new {}).load
      (0xFF :: 253 :: 107 :: 251 :: List.replicate 250 109 ++ [0, 253, 0])).script.lines.map
        (fun l => Text.size l.text) = [254] := by
  constructor <;> decide +kernel

/-- A program that fills up the room of one editor, loaded into another with as little, and a
program of two bytes less than that room. -/
theorem load_limited_full : ∃ e, Reachable { maxSize := 8 } e ∧ e.script.programSize = 8 ∧
    e.script.lines.map Line.text = ["END", ""] ∧
    ((Editor.new { maxSize := 8 }).load e.script.flatten).script.Limited ∧
    ((Editor.new { maxSize := 8 }).load [0xFF, 1, 0, 1, 9, 9]).script.Limited := by
  have inserted : ((Editor.new { maxSize := 8 }).perform
      (.edit (.insert ⟨1, 0⟩ .before "end"))).map (fun e => (e.script.lines, e.script.totalSize,
        e.script.capacity)) =
      .ok ([.compiled "END" [1, 0, 1] [], .compiled "" [1, 47, 1] []], 6, 8) := by
    decide +kernel
  rcases map_eq_ok.mp inserted with ⟨e, done, parts⟩
  rcases Prod.mk.inj parts with ⟨lines, parts⟩
  rcases Prod.mk.inj parts with ⟨size, capacity⟩
  have reached : Reachable { maxSize := 8 } e := .perform _ .new done
  have full : e.script.programSize = 8 := by rw [Script.programSize, size]; rfl
  have limited : e.script.Limited := by
    constructor
    · rw [full, capacity]
    · rw [lines]
      decide
  have loads := load_limited (.new { maxSize := 8 }) (by decide)
  refine ⟨e, reached, full, ?_, ?_, ?_⟩
  · rw [lines]
    rfl
  · exact loads.2.2 _ e reached (by decide) limited (Nat.le_of_eq full)
  · exact loads.2.1 _ (by decide) (by decide +kernel)

end Editor

end RobotScript
