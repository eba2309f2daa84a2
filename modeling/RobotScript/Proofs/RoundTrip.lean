import RobotScript.Proofs.Rendering
/-!
Round trips between texts and records. What a line compiles to decodes to the line. The other way
round, the text of a record compiles to the record only if each field of the record is one that the
text shows in full.
-/
namespace RobotScript

/-- What a line compiles to decodes to the line, whatever follows it. -/
theorem decode_compile {text : String} {c : Compiled} (h : compile text = .ok c) (rest : Bytes) :
    decode (c.bytecode ++ rest) = .ok ⟨c.display, c.bytecode.length, c.args⟩ := by
  obtain ⟨s, bytes, -, typed, made, rfl⟩ := compile_eq_ok h
  exact decode_record typed made rest

theorem decode_compile_inc :
    decode ([8, 23, 3, 76, 32, 0, 0, 254, 255, 8] ++ [2, 0]) =
      .ok ⟨"INC \"L \" -2", 10, [.word, .number]⟩ := by
  have made : compile "inc  \"L \"$fffe" =
      .ok ⟨[8, 23, 3, 76, 32, 0, 0, 254, 255, 8], "INC \"L \" -2", [.word, .number]⟩ := by
    decide +kernel
  exact decode_compile made [2, 0]

/-! ### Remarks -/

theorem parse_remark (text : String) :
    Statement.parse (". \"" ++ text ++ "\"").toList = .ok (.comment text.toList) := by
  rw [← render_comment]
  exact Statement.parse_render_comment text.toList

theorem compile_remark (text : String) :
    compile (". \"" ++ text ++ "\"") =
      if Text.size text ≤ 252 then .ok ⟨encodeComment text, ". \"" ++ text ++ "\"", [.str]⟩
      else .error .tooLong := by
  have made := record?_comment text
  split
  next short =>
    rw [if_pos short] at made
    rw [compile_of_parse (parse_remark text) made, render_comment, String.ofList_toList]
    rfl
  next long =>
    rw [if_neg long] at made
    rw [compile, parse_remark]
    simp only [bind, Except.bind, made]

/-- A remark between quotes compiles to the record that its text is kept as, unless the text is too
long. That record reads back as the remark, whatever follows it, just if the text is not: its length
bytes start anew right where the assembler refuses. -/
theorem compile_eq_encodeComment (text : String) :
    compile (". \"" ++ text ++ "\"") =
        (if Text.size text ≤ 252 then .ok ⟨encodeComment text, ". \"" ++ text ++ "\"", [.str]⟩
        else .error .tooLong) ∧
      ∀ rest, decode (encodeComment text ++ rest) =
          .ok ⟨". \"" ++ text ++ "\"", Text.size text + 5, [.str]⟩ ↔ Text.size text ≤ 252 := by
  refine ⟨compile_remark text, fun rest => ⟨?_, ?_⟩⟩
  · intro read
    have bounded := consumed_le_max read
    dsimp only at bounded
    omega
  · intro short
    rw [decode_encodeComment short, length_encodeComment]
    rfl

/-! ### The fields of a record -/

def Chars.IsUtf8 (bs : Bytes) : Prop := ∃ cs, bs = encode cs

theorem Chars.isUtf8_iff {bs : Bytes} : IsUtf8 bs ↔ encode (decodeLossy bs) = bs := by
  constructor
  · rintro ⟨cs, rfl⟩
    rw [decodeLossy_encode]
  · intro same
    exact ⟨_, same.symm⟩

namespace Field

variable {i : Instruction} {kind : ArgKind} {kinds : List ArgKind} {field other : Field}
  {fields others : List Field} {a b : Bytes}

/-- Whether the text of a line shows a field in full: a character or a colour if it has a value of
that kind, and a text if it is well-formed and, but for the text of a remark, holds no quote. -/
def Representable (i : Instruction) (kind : ArgKind) : Field → Prop
  | word w => (kind = .character → w.toNat ≤ 255) ∧ (kind = .color → w.toNat ≤ Color.max)
  | text raw => Chars.IsUtf8 raw ∧ (i ≠ .comment → '"' ∉ Chars.decodeLossy raw)

theorem representable_iff (fits : Fits kind field) (remark : i = .comment → kind = .str) :
    Representable i kind field ↔ ofOperand field.operand = field ∧
      (i = .comment ∨ Operand.Spelled kind field.operand) := by
  cases field with
  | word w =>
    have numeric : kind.isNumeric = true := fits
    have other : i ≠ .comment := by
      intro comment
      rw [remark comment] at numeric
      contradiction
    simp [Representable, operand, ofOperand, Operand.Spelled, other]
  | text raw =>
    simp [Representable, operand, ofOperand, Operand.Spelled, Chars.isUtf8_iff, or_iff_not_imp_left]

theorem forall_representable_iff (fits : List.Forall₂ Fits kinds fields)
    (remark : i = .comment → ∀ kind ∈ kinds, kind = .str) :
    List.Forall₂ (Representable i) kinds fields ↔
      (fields.map operand).map ofOperand = fields ∧
        (i = .comment ∨ List.Forall₂ Operand.Spelled kinds (fields.map operand)) := by
  induction fits with
  | nil => simp
  | cons first rest ih =>
    have one := representable_iff first fun comment => remark comment _ List.mem_cons_self
    have others := ih fun comment kind mem => remark comment kind (List.mem_cons_of_mem _ mem)
    rw [List.forall₂_cons, one, others, List.map_cons, List.map_cons, List.cons.injEq,
      List.forall₂_cons]
    constructor
    · rintro ⟨⟨head, comment | shown⟩, tail, shownAll⟩
      · exact ⟨⟨head, tail⟩, .inl comment⟩
      · exact ⟨⟨head, tail⟩, shownAll.imp_right (And.intro shown)⟩
    · rintro ⟨⟨head, tail⟩, shown⟩
      exact ⟨⟨head, shown.imp_right And.left⟩, tail, shown.imp_right And.right⟩

theorem bytes_append_inj (fits : Fits kind field) (fits' : Fits kind other)
    (same : field.bytes ++ a = other.bytes ++ b) : field = other ∧ a = b := by
  cases field with
  | word w =>
    cases other with
    | word v =>
      simp only [bytes, List.cons_append, List.nil_append, List.cons.injEq, true_and] at same
      obtain ⟨low, high, tails⟩ := same
      have words : w = v := by
        rw [← Operand.ofNat_low_high w, low, high, Operand.ofNat_low_high]
      exact ⟨congrArg word words, tails⟩
    | text raw => exact absurd (fits'.1.symm.trans fits) (by decide)
  | text raw =>
    cases other with
    | word v => exact absurd (fits.1.symm.trans fits') (by decide)
    | text others =>
      simp only [bytes, List.cons_append, List.append_assoc, List.cons.injEq] at same
      obtain ⟨marker, tails⟩ := same
      -- The first byte of a text gives its length, which fits into a byte.
      have lengths : raw.length = others.length := by
        have short := fits.2
        have short' := fits'.2
        have counts := congrArg UInt8.toNat marker
        rw [Chars.toNat_ofNat_byte (by omega), Chars.toNat_ofNat_byte (by omega)] at counts
        omega
      obtain ⟨raws, behind⟩ := List.append_inj tails lengths
      exact ⟨congrArg text raws, (List.cons.inj behind).2⟩

theorem flatMap_bytes_inj (fits : List.Forall₂ Fits kinds fields)
    (fits' : List.Forall₂ Fits kinds others)
    (same : fields.flatMap bytes = others.flatMap bytes) : fields = others := by
  induction fits generalizing others with
  | nil =>
    cases fits'
    rfl
  | cons first rest ih =>
    cases fits' with
    | cons first' rest' =>
      obtain ⟨rfl, tails⟩ := bytes_append_inj first first' same
      rw [ih rest' tails]

end Field

namespace LaysOut

variable {i j : Instruction} {fields others : List Field} {bs : Bytes} {d : Decoded}

theorem wellTyped (h : LaysOut i fields bs) :
    (Statement.mk i (fields.map Field.operand)).WellTyped := by
  refine ⟨h.known, List.forall₂_map_right_iff.mpr (h.fits.imp ?_)⟩
  intro kind field fits
  cases field with
  | word w => exact fits
  | text raw => exact fits.1

theorem unique (h : LaysOut i fields bs) (h' : LaysOut j others bs) : i = j ∧ fields = others := by
  obtain ⟨known, fits, short, rfl⟩ := h
  obtain ⟨known', fits', short', same⟩ := h'
  obtain ⟨opcode, tails⟩ := List.cons.inj (Statement.frame_inj same)
  have instruction : i = j := by
    have found := Instruction.ofOpcode?_opcode known
    rw [opcode, Instruction.ofOpcode?_opcode known'] at found
    exact (Option.some.inj found).symm
  subst instruction
  exact ⟨rfl, Field.flatMap_bytes_inj fits fits' tails⟩

theorem exists_of_decode (h : decode bs = .ok d) :
    ∃ i fields, LaysOut i fields (bs.take d.consumed) := by
  obtain ⟨size, rest, s, rfl, -, closed, read, rfl⟩ := decode_eq_ok h
  obtain ⟨opcode, args, split, known, taken⟩ := ofBody?_eq_some read
  obtain ⟨fields, fits, flat, -⟩ := Field.exists_of_decodeAll? taken
  obtain ⟨bound, counted⟩ := List.getElem?_eq_some_iff.mp closed
  have body : s.instruction.opcode :: fields.flatMap Field.bytes = rest.take size.toNat := by
    rw [split, flat, List.append_nil, Instruction.opcode_of_ofOpcode? known]
  have length : (rest.take size.toNat).length = size.toNat := by
    rw [List.length_take, Nat.min_eq_left (Nat.le_of_lt bound)]
  refine ⟨s.instruction, fields, Instruction.mem_all_of_ofOpcode? known, fits, ?_, ?_⟩
  · have := size.toNat_lt
    rw [body, length]
    omega
  · rw [body, Statement.frame, length, UInt8.ofNat_toNat, List.take_succ_cons,
      List.take_succ_eq_append_getElem bound, counted]
    rfl

end LaysOut

/-- The text of a record compiles to the record just if every field is shown in full. -/
theorem compile_decode_iff {bs : Bytes} {d : Decoded} (h : decode bs = .ok d) :
    (∃ i fields, LaysOut i fields (bs.take d.consumed)) ∧
      ∀ i fields, LaysOut i fields (bs.take d.consumed) →
        ((∃ c, compile d.display = .ok c ∧ c.bytecode = bs.take d.consumed) ↔
          List.Forall₂ (Field.Representable i) i.params fields) := by
  refine ⟨LaysOut.exists_of_decode h, ?_⟩
  intro i fields laidOut
  have shown : d.display = String.ofList (Statement.render ⟨i, fields.map Field.operand⟩) := by
    have read := laidOut.decode_append []
    rw [List.append_nil, decode_take h] at read
    exact congrArg Decoded.display (Except.ok.inj read)
  have remark : i = .comment → ∀ kind ∈ i.params, kind = .str := by
    rintro rfl kind mem
    exact List.mem_singleton.mp mem
  rw [Field.forall_representable_iff laidOut.fits remark, shown]
  have text := Statement.parse_render_iff laidOut.wellTyped
  constructor
  · rintro ⟨c, made, same⟩
    -- A record has one statement, so the text can only have been read as that one.
    obtain ⟨s, bytes, parsed, typed, written, rfl⟩ := compile_eq_ok made
    subst same
    obtain ⟨rfl, rfl⟩ := laidOut.unique ((LaysOut.record?_iff typed).mp written)
    rw [String.toList_ofList] at parsed
    rw [Field.map_operand_map_ofOperand] at text parsed ⊢
    exact ⟨rfl, text.mp parsed⟩
  · rintro ⟨same, spelled⟩
    have parsed := text.mpr spelled
    rw [← String.toList_ofList (l := Statement.render _)] at parsed
    have written := (LaysOut.record?_iff laidOut.wellTyped).mpr (same.symm ▸ laidOut)
    have made := compile_of_parse parsed written
    exact ⟨_, made, rfl⟩

theorem compile_decode_remark :
    ∃ c, compile ". \"a\"b\"" = .ok c ∧ c.bytecode = [6, 107, 4, 97, 34, 98, 0, 6] := by
  have read : decode [6, 107, 4, 97, 34, 98, 0, 6] = .ok ⟨". \"a\"b\"", 8, [.str]⟩ := by
    decide +kernel
  have laidOut : LaysOut .comment [.text [97, 34, 98]] [6, 107, 4, 97, 34, 98, 0, 6] :=
    ⟨by decide, .cons ⟨rfl, by decide⟩ .nil, by decide, rfl⟩
  have utf8 : Chars.IsUtf8 [97, 34, 98] := ⟨['a', '"', 'b'], rfl⟩
  exact ((compile_decode_iff read).2 _ _ laidOut).mpr (.cons ⟨utf8, absurd rfl⟩ .nil)

end RobotScript
