import RobotScript.Proofs.RoundTrip
import RobotScript.Proofs.SaveReload
/-!
The canonical text of a line that was assembled, assembled again. The line comes back just if its
texts hold no quotes, which a bare word can; but a remark may hold any.
-/
namespace RobotScript

namespace Chars

theorem hexValue?_lt {c : Char} {n : Nat} (value : hexValue? c = some n) : n < 16 := by
  simp only [hexValue?, Char.isDigit, Bool.and_eq_true, decide_eq_true_eq, Char.le_def,
    UInt32.le_iff_toNat_le] at value
  have code : c.toNat = c.val.toNat := rfl
  have bounds : '0'.toNat = 48 ∧ '9'.val.toNat = 57 ∧ 'a'.toNat = 97 ∧ 'f'.val.toNat = 102 ∧
      'A'.toNat = 65 ∧ 'F'.val.toNat = 70 := by
    decide
  split at value
  next digit =>
    cases value
    omega
  split at value
  next lower =>
    cases value
    omega
  split at value
  next upper =>
    cases value
    omega
  next => contradiction

end Chars

namespace Color

theorem parse?_le_max {cs : List Char} {n : Nat} (read : parse? cs = some n) : n ≤ max := by
  have limits : max = 288 ∧ keptBackground = 256 ∧ keptForeground = 272 := ⟨rfl, rfl, rfl⟩
  unfold parse? at read
  split at read
  next k b f =>
    split at read
    next =>
      split at read
      next => exact Nat.le_of_eq (Option.some.inj read).symm
      next =>
        obtain ⟨digit, value, rfl⟩ := Option.map_eq_some_iff.mp read
        have := Chars.hexValue?_lt value
        omega
      next =>
        obtain ⟨digit, value, rfl⟩ := Option.map_eq_some_iff.mp read
        have := Chars.hexValue?_lt value
        omega
      next =>
        obtain ⟨high, valueHigh, read⟩ := Option.bind_eq_some_iff.mp read
        obtain ⟨low, valueLow, same⟩ := Option.bind_eq_some_iff.mp read
        cases same
        have := Chars.hexValue?_lt valueHigh
        have := Chars.hexValue?_lt valueLow
        omega
    next => contradiction
  next => contradiction

end Color

namespace Operand

def Unquoted : Operand → Prop
  | number _ => True
  | text cs => '"' ∉ cs

theorem toNat_ofNat_word {n bound : Nat} (small : bound < 65536) (le : n ≤ bound) :
    (UInt16.ofNat n).toNat ≤ bound := by
  rw [UInt16.toNat_ofNat', Nat.mod_eq_of_lt (by omega)]
  exact le

theorem spelled_ofToken? {kind : ArgKind} {token : Token} {value : Operand}
    (read : ofToken? kind token = some value) : Spelled kind value ↔ Unquoted value := by
  cases value with
  | text cs => exact Iff.rfl
  | number w =>
    refine iff_of_true ?_ trivial
    unfold ofToken? at read
    split at read
    next => exact ⟨nofun, nofun⟩
    next c =>
      split at read
      next byte =>
        cases read
        exact ⟨fun _ => toNat_ofNat_word (by decide) (by omega), nofun⟩
      next => contradiction
    next cs =>
      obtain ⟨n, value, same⟩ := Option.map_eq_some_iff.mp read
      cases same
      have bound := (Option.filter_eq_some_iff.mp value).2
      exact ⟨fun _ => toNat_ofNat_word (by decide) (of_decide_eq_true bound), nofun⟩
    next cs =>
      obtain ⟨n, value, same⟩ := Option.map_eq_some_iff.mp read
      cases same
      exact ⟨nofun, fun _ => toNat_ofNat_word (by decide) (Color.parse?_le_max value)⟩
    all_goals cases read

theorem forall_spelled_iff {kinds : List ArgKind} {values : List Operand}
    (read : List.Forall₂ (fun kind value => Spelled kind value ↔ Unquoted value) kinds values) :
    List.Forall₂ Spelled kinds values ↔ ∀ value ∈ values, value.Unquoted := by
  induction read with
  | nil => simp
  | cons first _ ih => simp [first, ih]

end Operand

namespace Statement

variable {s s' : Statement} {bytes : Bytes}

/-- Whether the canonical text of a statement shows its texts in full. -/
def Clear (s : Statement) : Prop :=
  s.instruction = .comment ∨ ∀ value ∈ s.operands, value.Unquoted

theorem parse_render_of_parse {cs : List Char} (read : parse cs = .ok s) :
    parse s.render = .ok s ↔ s.Clear := by
  rw [parse_render_iff (wellTyped_parse read)]
  obtain rfl | ⟨payload, rfl⟩ | ⟨-, spelled⟩ :=
    forall_parse (fun _ _ _ => Operand.spelled_ofToken?) read
  · simp [Clear, blank, Instruction.blank]
  · exact iff_of_true (.inl rfl) (.inl rfl)
  · exact or_congr Iff.rfl (Operand.forall_spelled_iff spelled)

theorem eq_of_record? (typed : s.WellTyped) (typed' : s'.WellTyped) (made : s.record? = some bytes)
    (made' : s'.record? = some bytes) : s = s' := by
  obtain ⟨i, values⟩ := s
  obtain ⟨j, others⟩ := s'
  obtain ⟨rfl, same⟩ := ((LaysOut.record?_iff typed).mp made).unique
    ((LaysOut.record?_iff typed').mp made')
  have back := congrArg (List.map Field.operand) same
  rw [Field.map_operand_map_ofOperand, Field.map_operand_map_ofOperand] at back
  cases back
  rfl

theorem head?_render (typed : s.WellTyped) : s.render.head? ≠ some '#' := by
  have names : ∀ i ∈ Instruction.all, i.name.head? ≠ some '#' ∧ (i.name = [] → i.params = []) := by
    decide
  obtain ⟨first, nameless⟩ := names s.instruction typed.known
  rw [render_eq]
  cases name : s.instruction.name with
  | nil => simp [nameless name]
  | cons c cs => simpa [name] using first

end Statement

namespace Line

variable {l : Line}

/-- Whether a line holds what some text compiles to. -/
def Assembled (l : Line) : Prop :=
  ∃ text c, compile text = .ok c ∧ Text.size c.display ≤ maxText ∧
    l = .compiled c.display c.bytecode c.args

/-- Whether the text of a line shows the texts of its record in full. -/
def Clear (l : Line) : Prop :=
  ∃ s : Statement, s.WellTyped ∧ s.record? = some l.bytecode ∧ s.Clear

theorem Assembled.eq_compiled (assembled : l.Assembled) :
    l = .compiled l.text l.bytecode l.args := by
  obtain ⟨text, c, -, -, rfl⟩ := assembled
  rfl

theorem Assembled.size_text_le (assembled : l.Assembled) : Text.size l.text ≤ maxText := by
  obtain ⟨text, c, -, short, rfl⟩ := assembled
  exact short

theorem Assembled.size_eq (assembled : l.Assembled) : l.size = l.bytecode.length := by
  rw [assembled.eq_compiled]
  rfl

theorem Assembled.isSaved (assembled : l.Assembled) : l.isSaved = true := by
  rw [assembled.eq_compiled]
  rfl

theorem Assembled.inStep (assembled : l.Assembled) : l.InStep := by
  obtain ⟨text, c, made, -, rfl⟩ := assembled
  exact .compiled (decode_bytecode made)

theorem Assembled.three_le_size (assembled : l.Assembled) : 3 ≤ l.size := by
  obtain ⟨text, c, made, -, rfl⟩ := assembled
  exact three_le_consumed (decode_bytecode made)

theorem Assembled.callsMacro_eq_false (assembled : l.Assembled) :
    Editor.callsMacro l.text = false := by
  obtain ⟨text, c, made, -, rfl⟩ := assembled
  obtain ⟨s, bytes, -, typed, -, rfl⟩ := compile_eq_ok made
  have first := Statement.head?_render typed
  simpa [Editor.callsMacro, compiled] using first

/-- A line that was assembled comes back from its text just if that text is clear. -/
theorem Assembled.compile_text_iff (assembled : l.Assembled) :
    compile l.text = .ok ⟨l.bytecode, l.text, l.args⟩ ↔ l.Clear := by
  obtain ⟨text, c, made, -, rfl⟩ := assembled
  obtain ⟨s, bytes, read, typed, written, rfl⟩ := compile_eq_ok made
  have back := Statement.parse_render_of_parse read
  constructor
  · intro again
    refine ⟨s, typed, written, back.mp ?_⟩
    obtain ⟨s', bytes', read', typed', written', same⟩ := compile_eq_ok again
    obtain ⟨rfl, -, -⟩ := Compiled.mk.inj same
    cases Statement.eq_of_record? typed typed' written written'
    rwa [compiled, String.toList_ofList] at read'
  · rintro ⟨s', typed', written', clear⟩
    cases Statement.eq_of_record? typed typed' written written'
    have again := back.mpr clear
    rw [← String.toList_ofList (l := s.render)] at again
    exact compile_of_parse again written

end Line

end RobotScript
