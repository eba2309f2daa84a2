import Mathlib.Data.List.Forall2
import RobotScript.Assembler
import RobotScript.Proofs.Utf8
/-!
Records read back: the record of a line is read, whatever bytes follow it, as the line that it was
made from. A record that is read is read alike whatever follows it.
-/
namespace RobotScript

namespace Operand

/-- Whether a value has the form that arguments of a kind have. -/
def Fits (kind : ArgKind) : Operand → Prop
  | number _ => kind.isNumeric = true
  | text _ => kind.isNumeric = false

theorem fits_ofToken? {kind : ArgKind} {token : Token} {value : Operand}
    (h : ofToken? kind token = some value) : Fits kind value := by
  unfold ofToken? at h
  split at h
  · obtain ⟨w, -, rfl⟩ := Option.map_eq_some_iff.mp h
    rfl
  · split at h
    · cases h
      rfl
    · contradiction
  · obtain ⟨n, -, rfl⟩ := Option.map_eq_some_iff.mp h
    rfl
  · obtain ⟨n, -, rfl⟩ := Option.map_eq_some_iff.mp h
    rfl
  all_goals first | contradiction | (cases h; rfl)

theorem ofNat_low_high (w : UInt16) :
    UInt16.ofNat ((UInt8.ofNat w.toNat).toNat + 256 * (UInt8.ofNat (w.toNat / 256)).toNat) = w := by
  have bound : w.toNat < 65536 := w.toNat_lt
  have sum : (UInt8.ofNat w.toNat).toNat + 256 * (UInt8.ofNat (w.toNat / 256)).toNat =
      w.toNat := by
    simp only [UInt8.toNat_ofNat']
    omega
  rw [sum, UInt16.ofNat_toNat]

end Operand

/-- An argument as a record holds it: a word, or a text of any bytes. -/
inductive Field where
  | word (w : UInt16)
  | text (raw : Bytes)
  deriving DecidableEq, Repr

namespace Field

variable {kind : ArgKind} {kinds : List ArgKind} {fields : List Field} {values : List Operand}
  {bs rest : Bytes}

def bytes : Field → Bytes
  | word w => [0, UInt8.ofNat w.toNat, UInt8.ofNat (w.toNat / 256)]
  | text raw => UInt8.ofNat (raw.length + 1) :: raw ++ [0]

def operand : Field → Operand
  | word w => .number w
  | text raw => .text (Chars.decodeLossy raw)

/-- Whether a field has the form that arguments of a kind have. The byte that counts a text counts
its closing zero. -/
def Fits (kind : ArgKind) : Field → Prop
  | word _ => kind.isNumeric = true
  | text raw => kind.isNumeric = false ∧ raw.length < 255

theorem decodeAll?_cons (field : Field) (fits : Fits kind field) :
    Operand.decodeAll? (kind :: kinds) (field.bytes ++ rest) =
      (Operand.decodeAll? kinds rest).map fun (values, rest) => (field.operand :: values, rest) := by
  cases field with
  | word w =>
    have numeric : kind.isNumeric = true := fits
    simp only [bytes, List.cons_append, List.nil_append, Operand.decodeAll?, numeric, if_true,
      beq_self_eq_true, Operand.ofNat_low_high]
    cases Operand.decodeAll? kinds rest <;> rfl
  | text raw =>
    obtain ⟨textual, short⟩ := fits
    have size : (UInt8.ofNat (raw.length + 1)).toNat = raw.length + 1 :=
      Chars.toNat_ofNat_byte (by omega)
    have taken : (raw ++ 0 :: rest).take raw.length = raw := List.take_left' rfl
    have dropped : (raw ++ 0 :: rest).drop (raw.length + 1) = rest := by
      rw [List.drop_length_add_append]
      rfl
    have spelled : (text raw).bytes ++ rest =
        UInt8.ofNat (raw.length + 1) :: (raw ++ 0 :: rest) := by
      simp [bytes]
    rw [spelled]
    simp only [Operand.decodeAll?, textual, size, Nat.add_sub_cancel, taken, dropped]
    cases Operand.decodeAll? kinds rest <;> simp [operand]

theorem decodeAll?_flatMap (fits : List.Forall₂ Fits kinds fields) (rest : Bytes) :
    Operand.decodeAll? kinds (fields.flatMap bytes ++ rest) = some (fields.map operand, rest) := by
  induction fits with
  | nil => rfl
  | cons first others ih =>
    rw [List.flatMap_cons, List.append_assoc, decodeAll?_cons _ first, ih]
    rfl

theorem bytes_word (low high : UInt8) :
    (word (UInt16.ofNat (low.toNat + 256 * high.toNat))).bytes = [0, low, high] := by
  have low_lt := low.toNat_lt
  have high_lt := high.toNat_lt
  have value : (UInt16.ofNat (low.toNat + 256 * high.toNat)).toNat =
      low.toNat + 256 * high.toNat := by
    rw [UInt16.toNat_ofNat']
    omega
  have first : UInt8.ofNat (low.toNat + 256 * high.toNat) = low := by
    apply UInt8.toNat_inj.mp
    rw [UInt8.toNat_ofNat']
    omega
  have second : (low.toNat + 256 * high.toNat) / 256 = high.toNat := by omega
  rw [bytes, value, first, second, UInt8.ofNat_toNat]

theorem bytes_text_append {marker : UInt8} (marked : marker.toNat ≠ 0)
    (closed : bs[marker.toNat - 1]? = some 0) :
    (text (bs.take (marker.toNat - 1))).bytes ++ bs.drop marker.toNat = marker :: bs := by
  obtain ⟨bound, zero⟩ := List.getElem?_eq_some_iff.mp closed
  have size : (bs.take (marker.toNat - 1)).length + 1 = marker.toNat := by
    rw [List.length_take]
    omega
  have behind : bs.drop (marker.toNat - 1) = 0 :: bs.drop marker.toNat := by
    rw [List.drop_eq_getElem_cons bound, zero, Nat.sub_add_cancel (Nat.pos_of_ne_zero marked)]
  rw [bytes, size, UInt8.ofNat_toNat, List.cons_append, List.cons_append, List.append_assoc,
    List.singleton_append, ← behind, List.take_append_drop]

theorem exists_of_decodeAll? (h : Operand.decodeAll? kinds bs = some (values, rest)) :
    ∃ fields, List.Forall₂ Fits kinds fields ∧ bs = fields.flatMap bytes ++ rest ∧
      values = fields.map operand := by
  induction kinds generalizing bs values with
  | nil =>
    cases h
    exact ⟨[], .nil, rfl, rfl⟩
  | cons kind kinds ih =>
    cases bs with
    | nil => contradiction
    | cons marker bs =>
      unfold Operand.decodeAll? at h
      split at h
      next numeric =>
        split at h
        next low high tail zero =>
          obtain ⟨⟨others, left⟩, read, done⟩ := Option.bind_eq_some_iff.mp h
          cases done
          obtain ⟨fields, fits, rfl, rfl⟩ := ih read
          refine ⟨word _ :: fields, .cons numeric fits, ?_, rfl⟩
          rw [List.flatMap_cons, bytes_word, beq_iff_eq.mp zero]
          rfl
        next => contradiction
      next textual =>
        dsimp only at h
        split at h
        next closed =>
          obtain ⟨marked, zero⟩ := closed
          obtain ⟨⟨others, left⟩, read, done⟩ := Option.bind_eq_some_iff.mp h
          cases done
          obtain ⟨fields, fits, tail, rfl⟩ := ih read
          have short : (bs.take (marker.toNat - 1)).length < 255 := by
            have := marker.toNat_lt
            rw [List.length_take]
            omega
          refine ⟨text _ :: fields, .cons ⟨Bool.not_eq_true _ ▸ textual, short⟩ fits, ?_, rfl⟩
          rw [List.flatMap_cons, List.append_assoc, ← tail, bytes_text_append marked zero]
        next => contradiction

def ofOperand : Operand → Field
  | .number w => word w
  | .text cs => text (Chars.encode cs)

@[simp] theorem operand_ofOperand (value : Operand) : (ofOperand value).operand = value := by
  cases value <;> simp [ofOperand, operand]

@[simp] theorem map_operand_map_ofOperand (values : List Operand) :
    (values.map ofOperand).map operand = values := by
  simp [Function.comp_def]

theorem encode?_eq_some_iff {value : Operand} (typed : Operand.Fits kind value) :
    value.encode? = some bs ↔ Fits kind (ofOperand value) ∧ (ofOperand value).bytes = bs := by
  cases value with
  | number w =>
    have numeric : Fits kind (word w) := typed
    simp [Operand.encode?, ofOperand, bytes, numeric]
  | text cs =>
    have laid : (ofOperand (.text cs)).bytes =
        UInt8.ofNat (Chars.width cs + 1) :: Chars.encode cs ++ [0] := by
      rw [ofOperand, bytes, Chars.length_encode]
    have short : Fits kind (ofOperand (.text cs)) ↔ Chars.width cs + 1 ≤ 255 := by
      rw [ofOperand, Fits, Chars.length_encode]
      exact ⟨fun fits => fits.2, fun fits => ⟨typed, fits⟩⟩
    rw [laid, short, Operand.encode?]
    split
    next fits =>
      rw [Option.some.injEq]
      exact ⟨fun same => ⟨fits, same⟩, And.right⟩
    next long => exact ⟨fun impossible => by contradiction, fun fits => absurd fits.1 long⟩

theorem mapM_encode?_iff {args : List Bytes} (typed : List.Forall₂ Operand.Fits kinds values) :
    values.mapM Operand.encode? = some args ↔
      List.Forall₂ Fits kinds (values.map ofOperand) ∧
        (values.map ofOperand).map bytes = args := by
  induction typed generalizing args with
  | nil => simp [eq_comm]
  | cons first others ih =>
    simp only [List.mapM_cons, Option.bind_eq_bind, Option.bind_eq_some_iff, Option.pure_def,
      Option.some.injEq, encode?_eq_some_iff first, ih, List.map_cons, List.forall₂_cons]
    constructor
    · rintro ⟨_, ⟨fit, rfl⟩, _, ⟨fits, rfl⟩, rfl⟩
      exact ⟨⟨fit, fits⟩, rfl⟩
    · rintro ⟨⟨fit, fits⟩, rfl⟩
      exact ⟨_, ⟨fit, rfl⟩, _, ⟨fits, rfl⟩, rfl⟩

end Field

namespace Instruction

theorem ofOpcode?_opcode {i : Instruction} (h : i ∈ all) : ofOpcode? i.opcode = some i := by
  revert i
  decide

theorem mem_all_of_ofOpcode? {opcode : UInt8} {i : Instruction} (h : ofOpcode? opcode = some i) :
    i ∈ all := List.mem_of_find?_eq_some h

theorem opcode_of_ofOpcode? {opcode : UInt8} {i : Instruction} (h : ofOpcode? opcode = some i) :
    i.opcode = opcode := by
  simpa using List.find?_some h

theorem eq_blank_of_name {i : Instruction} (h : i ∈ all) (name : i.name = []) : i = blank := by
  revert i
  decide

end Instruction

namespace Statement

structure WellTyped (s : Statement) : Prop where
  known : s.instruction ∈ Instruction.all
  fits : List.Forall₂ Operand.Fits s.instruction.params s.operands

theorem wellTyped_blank : blank.WellTyped := ⟨by decide, .nil⟩

theorem wellTyped_comment (payload : List Char) : (comment payload).WellTyped :=
  ⟨show Instruction.comment ∈ Instruction.all by decide, .cons rfl .nil⟩

variable {R : ArgKind → Operand → Prop}

theorem forall_readOperands {command : String} {index : Nat} {kinds : List ArgKind}
    {tokens : List Token} {values : List Operand}
    (holds : ∀ kind token value, Operand.ofToken? kind token = some value → R kind value)
    (h : readOperands command index kinds tokens = .ok values) : List.Forall₂ R kinds values := by
  induction kinds generalizing index tokens values with
  | nil =>
    cases h
    exact .nil
  | cons kind kinds ih =>
    cases tokens with
    | nil => contradiction
    | cons token tokens =>
      unfold readOperands at h
      cases read : Operand.ofToken? kind token with
      | none => simp [read, bind, Except.bind] at h
      | some value =>
        cases others : readOperands command (index + 1) kinds tokens with
        | error err => simp [read, others, bind, Except.bind] at h
        | ok tail =>
          simp only [read, others, bind, Except.bind, pure, Except.pure, Except.ok.injEq] at h
          cases h
          exact .cons (holds kind token value read) (ih others)

theorem forall_ofArguments {i : Instruction} {rest : List Char} {s : Statement}
    (holds : ∀ kind token value, Operand.ofToken? kind token = some value → R kind value)
    (h : ofArguments i rest = .ok s) :
    s.instruction = i ∧ List.Forall₂ R s.instruction.params s.operands := by
  unfold ofArguments at h
  cases scanned : Token.scan? rest with
  | none => simp [scanned, bind, Except.bind] at h
  | some tokens =>
    simp only [scanned, bind, Except.bind] at h
    split at h
    · contradiction
    · split at h
      · contradiction
      next values read =>
        cases h
        exact ⟨rfl, forall_readOperands holds read⟩

theorem forall_parse {cs : List Char} {s : Statement}
    (holds : ∀ kind token value, Operand.ofToken? kind token = some value → R kind value)
    (h : parse cs = .ok s) :
    s = blank ∨ (∃ payload, s = comment payload) ∨
      s.instruction ∈ Instruction.all ∧ List.Forall₂ R s.instruction.params s.operands := by
  unfold parse at h
  split at h
  · cases h
    exact .inl rfl
  · cases h
    exact .inr (.inl ⟨_, rfl⟩)
  · dsimp only at h
    split at h
    next i named =>
      obtain ⟨same, read⟩ := forall_ofArguments holds h
      exact .inr (.inr ⟨same ▸ List.mem_of_find?_eq_some named, read⟩)
    next => contradiction

theorem wellTyped_parse {cs : List Char} {s : Statement} (h : parse cs = .ok s) : s.WellTyped := by
  obtain rfl | ⟨payload, rfl⟩ | ⟨known, fits⟩ := forall_parse (fun _ _ _ => Operand.fits_ofToken?) h
  · exact wellTyped_blank
  · exact wellTyped_comment payload
  · exact ⟨known, fits⟩

/-! ### Records -/

theorem body_frame {bs : Bytes} (nonempty : bs ≠ []) (short : bs.length ≤ 255) (rest : Bytes) :
    body (frame bs ++ rest) = .ok bs := by
  have positive : 0 < bs.length := List.length_pos_iff.mpr nonempty
  have size : (UInt8.ofNat bs.length).toNat = bs.length := Chars.toNat_ofNat_byte (by omega)
  have marked : UInt8.ofNat bs.length ≠ 0 := by
    intro h
    have zero := congrArg UInt8.toNat h
    rw [size] at zero
    simp at zero
    contradiction
  rw [frame, List.cons_append]
  simp [body, marked, size]

theorem length_frame (bs : Bytes) : (frame bs).length = bs.length + 2 := by
  simp [frame]

theorem frame_inj {bs others : Bytes} (same : frame bs = frame others) : bs = others := by
  have tails := (List.cons.inj same).2
  exact (List.append_inj' tails rfl).1

end Statement

structure LaysOut (i : Instruction) (fields : List Field) (bs : Bytes) : Prop where
  known : i ∈ Instruction.all
  fits : List.Forall₂ Field.Fits i.params fields
  short : (i.opcode :: fields.flatMap Field.bytes).length ≤ 255
  framed : bs = Statement.frame (i.opcode :: fields.flatMap Field.bytes)

namespace LaysOut

variable {i : Instruction} {fields : List Field} {bs : Bytes}

/-- The record of a statement has the fields that its operands are laid out as. -/
theorem record?_iff {s : Statement} (typed : s.WellTyped) :
    s.record? = some bs ↔ LaysOut s.instruction (s.operands.map Field.ofOperand) bs := by
  have flat : ∀ args : List Bytes, (s.operands.map Field.ofOperand).map Field.bytes = args →
      args.flatten = (s.operands.map Field.ofOperand).flatMap Field.bytes := by
    rintro _ rfl
    rfl
  constructor
  · intro made
    obtain ⟨args, laidOut, made⟩ := Option.bind_eq_some_iff.mp made
    obtain ⟨fits, same⟩ := (Field.mapM_encode?_iff typed.fits).mp laidOut
    dsimp only at made
    rw [flat args same] at made
    split at made
    next short => exact ⟨typed.known, fits, short, (Option.some.inj made).symm⟩
    next => contradiction
  · rintro ⟨-, fits, short, rfl⟩
    have laidOut := (Field.mapM_encode?_iff typed.fits).mpr ⟨fits, rfl⟩
    rw [Statement.record?, laidOut]
    dsimp only [Option.bind_eq_bind, Option.bind_some]
    rw [flat _ rfl, if_pos short]

theorem decode_append (h : LaysOut i fields bs) (rest : Bytes) :
    decode (bs ++ rest) =
      .ok ⟨String.ofList (Statement.render ⟨i, fields.map Field.operand⟩), bs.length, i.params⟩ := by
  obtain ⟨known, fits, short, rfl⟩ := h
  have read := Field.decodeAll?_flatMap fits []
  rw [List.append_nil] at read
  have body : Statement.ofBody? (i.opcode :: fields.flatMap Field.bytes) =
      some ⟨i, fields.map Field.operand⟩ := by
    simp [Statement.ofBody?, Instruction.ofOpcode?_opcode known, read]
  unfold decode
  rw [Statement.body_frame (List.cons_ne_nil _ _) short, Statement.length_frame]
  simp [bind, Except.bind, body]

end LaysOut

theorem decode_record {s : Statement} {bytes : Bytes} (typed : s.WellTyped)
    (h : s.record? = some bytes) (rest : Bytes) :
    decode (bytes ++ rest) =
      .ok ⟨String.ofList s.render, bytes.length, s.instruction.params⟩ := by
  have read := ((LaysOut.record?_iff typed).mp h).decode_append rest
  rw [Field.map_operand_map_ofOperand] at read
  exact read

theorem compile_eq_ok {text : String} {c : Compiled} (h : compile text = .ok c) :
    ∃ s bytes, Statement.parse text.toList = .ok s ∧ s.WellTyped ∧ s.record? = some bytes ∧
      c = ⟨bytes, String.ofList s.render, s.instruction.params⟩ := by
  unfold compile at h
  cases parsed : Statement.parse text.toList with
  | error err => simp [parsed, bind, Except.bind] at h
  | ok s =>
    simp only [parsed, bind, Except.bind] at h
    split at h
    next bytes made =>
      cases h
      exact ⟨s, bytes, rfl, Statement.wellTyped_parse parsed, made, rfl⟩
    next => contradiction

theorem compile_of_parse {text : String} {s : Statement} {bytes : Bytes}
    (parsed : Statement.parse text.toList = .ok s) (made : s.record? = some bytes) :
    compile text = .ok ⟨bytes, String.ofList s.render, s.instruction.params⟩ := by
  simp [compile, parsed, made, bind, Except.bind]

/-! ### Records at the start of longer bytes -/

theorem decode_eq_ok {bs : Bytes} {d : Decoded} (h : decode bs = .ok d) :
    ∃ size rest s, bs = size :: rest ∧ size ≠ 0 ∧ rest[size.toNat]? = some size ∧
      Statement.ofBody? (rest.take size.toNat) = some s ∧
      d = ⟨String.ofList s.render, size.toNat + 2, s.instruction.params⟩ := by
  cases bs with
  | nil => simp [decode, Statement.body, bind, Except.bind] at h
  | cons size rest =>
    unfold decode Statement.body at h
    by_cases ended : size = 0
    · simp [ended, bind, Except.bind] at h
    by_cases closed : rest[size.toNat]? = some size
    · simp only [ended, closed, if_false, if_true, bind, Except.bind] at h
      split at h
      next s read =>
        cases h
        have bound : size.toNat < rest.length := (List.getElem?_eq_some_iff.mp closed).1
        refine ⟨size, rest, s, rfl, ended, closed, read, ?_⟩
        rw [List.length_take, Nat.min_eq_left (by omega)]
      next => contradiction
    · simp [ended, closed, bind, Except.bind] at h

theorem decode_cons {size : UInt8} {rest : Bytes} {s : Statement} (marked : size ≠ 0)
    (closed : rest[size.toNat]? = some size)
    (read : Statement.ofBody? (rest.take size.toNat) = some s) :
    decode (size :: rest) =
      .ok ⟨String.ofList s.render, size.toNat + 2, s.instruction.params⟩ := by
  have bound : size.toNat < rest.length := (List.getElem?_eq_some_iff.mp closed).1
  simp only [decode, Statement.body, marked, closed, read, if_false, if_true, bind, Except.bind,
    List.length_take, Nat.min_eq_left (Nat.le_of_lt bound)]

theorem consumed_le {bs : Bytes} {d : Decoded} (h : decode bs = .ok d) :
    d.consumed ≤ bs.length := by
  obtain ⟨size, rest, s, rfl, -, closed, -, rfl⟩ := decode_eq_ok h
  have bound : size.toNat < rest.length := (List.getElem?_eq_some_iff.mp closed).1
  simp only [List.length_cons]
  omega

theorem three_le_consumed {bs : Bytes} {d : Decoded} (h : decode bs = .ok d) : 3 ≤ d.consumed := by
  obtain ⟨size, rest, s, -, marked, -, -, rfl⟩ := decode_eq_ok h
  have positive : size.toNat ≠ 0 := fun zero => marked (UInt8.toNat_inj.mp zero)
  dsimp only
  omega

theorem consumed_le_max {bs : Bytes} {d : Decoded} (h : decode bs = .ok d) : d.consumed ≤ 257 := by
  obtain ⟨size, rest, s, -, -, -, -, rfl⟩ := decode_eq_ok h
  have := size.toNat_lt
  dsimp only
  omega

theorem decode_append {bs : Bytes} {d : Decoded} (h : decode bs = .ok d) (rest : Bytes) :
    decode (bs ++ rest) = .ok d := by
  obtain ⟨size, tail, s, rfl, marked, closed, read, rfl⟩ := decode_eq_ok h
  have bound : size.toNat < tail.length := (List.getElem?_eq_some_iff.mp closed).1
  rw [List.cons_append]
  apply decode_cons marked
  · rw [List.getElem?_append_left bound, closed]
  · rw [List.take_append_of_le_length (Nat.le_of_lt bound), read]

theorem decode_take {bs : Bytes} {d : Decoded} (h : decode bs = .ok d) :
    decode (bs.take d.consumed) = .ok d := by
  obtain ⟨size, tail, s, rfl, marked, closed, read, rfl⟩ := decode_eq_ok h
  apply decode_cons marked
  · rw [List.getElem?_take_of_lt (by omega), closed]
  · rw [List.take_take, Nat.min_eq_left (by omega), read]

theorem length_take_consumed {bs : Bytes} {d : Decoded} (h : decode bs = .ok d) :
    (bs.take d.consumed).length = d.consumed := by
  rw [List.length_take, Nat.min_eq_left (consumed_le h)]

/-! ### Blank lines and remarks -/

theorem ofBody?_eq_some {bs : Bytes} {s : Statement} (h : Statement.ofBody? bs = some s) :
    ∃ opcode args, bs = opcode :: args ∧ Instruction.ofOpcode? opcode = some s.instruction ∧
      Operand.decodeAll? s.instruction.params args = some (s.operands, []) := by
  cases bs with
  | nil => contradiction
  | cons opcode args =>
    unfold Statement.ofBody? at h
    obtain ⟨i, known, h⟩ := Option.bind_eq_some_iff.mp h
    obtain ⟨⟨operands, left⟩, taken, h⟩ := Option.bind_eq_some_iff.mp h
    dsimp only at h
    split at h
    next used =>
      cases h
      rw [List.isEmpty_iff] at used
      exact ⟨opcode, args, rfl, known, used ▸ taken⟩
    next => contradiction

theorem bytes_of_decode_empty {bs : Bytes} {d : Decoded} (h : decode bs = .ok d)
    (whole : d.consumed = bs.length) (empty : d.display = "") : bs = [1, 47, 1] := by
  obtain ⟨size, rest, s, rfl, marked, closed, read, rfl⟩ := decode_eq_ok h
  obtain ⟨opcode, args, split, known, taken⟩ := ofBody?_eq_some read
  have unnamed : s.instruction.name = [] := by
    have render : s.render = [] := by simpa using empty
    exact (List.append_eq_nil_iff.mp render).1
  have blank : s.instruction = .blank :=
    Instruction.eq_blank_of_name (Instruction.mem_all_of_ofOpcode? known) unnamed
  have bare : args = [] := by
    rw [blank] at taken
    simpa [Instruction.blank, Operand.decodeAll?] using congrArg (Option.map Prod.snd) taken
  have code : opcode = 47 := by
    rw [← Instruction.opcode_of_ofOpcode? known, blank]
    rfl
  subst bare code
  have bound : size.toNat < rest.length := (List.getElem?_eq_some_iff.mp closed).1
  have one : size.toNat = 1 := by
    have := congrArg List.length split
    rw [List.length_take, Nat.min_eq_left (Nat.le_of_lt bound)] at this
    simpa using this
  have size_eq : size = 1 := UInt8.toNat_inj.mp one
  subst size_eq
  match rest, whole, split, closed with
  | [a, b], _, split, closed => simp_all

/-- The record that keeps a text as a remark is the record of the remark, as long as there is one. -/
theorem record?_comment (text : String) :
    (Statement.comment text.toList).record? =
      if Text.size text ≤ 252 then some (encodeComment text) else none := by
  split
  next short =>
    have width : Chars.width text.toList ≤ 252 := short
    have encoded : [Operand.text text.toList].mapM Operand.encode? =
        some [UInt8.ofNat (Chars.width text.toList + 1) :: Chars.encode text.toList ++ [0]] := by
      have fits : Chars.width text.toList + 1 ≤ 255 := by omega
      simp only [List.mapM_cons, List.mapM_nil, Operand.encode?, fits, if_true]
      rfl
    simp only [Statement.record?, Statement.comment, encoded, Option.bind_eq_bind,
      Option.bind_some, List.flatten_cons, List.flatten_nil, List.append_nil]
    have length : (Instruction.comment.opcode :: (UInt8.ofNat (Chars.width text.toList + 1) ::
        Chars.encode text.toList ++ [0])).length = Chars.width text.toList + 3 := by
      simp
    rw [length, if_pos (by omega), Statement.frame, length]
    simp [encodeComment]
  next long =>
    rw [Option.eq_none_iff_forall_ne_some]
    intro bs made
    have short := ((LaysOut.record?_iff (Statement.wellTyped_comment _)).mp made).short
    simp only [Statement.comment, List.map_cons, List.map_nil, Field.ofOperand, Field.bytes,
      List.flatMap_cons, List.flatMap_nil, List.length_cons, List.length_append, List.length_nil,
      Chars.length_encode] at short
    unfold Text.size at long
    omega

theorem render_comment (text : String) :
    (Statement.comment text.toList).render = (". \"" ++ text ++ "\"").toList := by
  simp [Statement.render, Statement.comment, Instruction.comment, Operand.render, Operand.quote]

theorem length_encodeComment (text : String) :
    (encodeComment text).length = Text.size text + commentOverhead := by
  simp [encodeComment, commentOverhead, Text.size]

theorem decode_encodeComment {text : String} (short : Text.size text ≤ 252) (rest : Bytes) :
    decode (encodeComment text ++ rest) =
      .ok ⟨". \"" ++ text ++ "\"", (encodeComment text).length, [.str]⟩ := by
  have made := record?_comment text
  rw [if_pos short] at made
  rw [decode_record (Statement.wellTyped_comment _) made, render_comment, String.ofList_toList]
  rfl

end RobotScript
