import RobotScript.Proofs.SaveReload
/-!
Loading arbitrary bytes. The records that are split off are the longest run of records that the
bytes start with; loading, the strict reading and the saved form of what was loaded all go by them.
-/
namespace RobotScript

def Record.Reads (r : Record) : Prop :=
  decode r.bytes = .ok r.decoded ∧ r.decoded.consumed = r.bytes.length

def joinRecords (records : List Record) : Bytes := records.flatMap (·.bytes)

@[simp] theorem joinRecords_nil : joinRecords [] = [] := rfl

@[simp] theorem joinRecords_cons (r : Record) (records : List Record) :
    joinRecords (r :: records) = r.bytes ++ joinRecords records := rfl

variable {bs : Bytes} {d : Decoded} {r : Record} {records : List Record}

theorem decode_endOfProgram_iff : decode bs = .error .endOfProgram ↔ bs.head? = some 0 := by
  cases bs with
  | nil => simp [decode, Statement.body, bind, Except.bind]
  | cons size rest =>
    by_cases ended : size = 0
    · simp [decode, Statement.body, ended, bind, Except.bind]
    · by_cases closed : rest[size.toNat]? = some size
      · simp only [decode, Statement.body, ended, closed, if_false, if_true, bind, Except.bind]
        cases Statement.ofBody? (rest.take size.toNat) <;> simp [ended]
      · simp [decode, Statement.body, ended, closed, bind, Except.bind]

/-! ### The records that bytes start with -/

theorem joinRecords_splitRecords (bs : Bytes) :
    joinRecords (splitRecords bs).1 ++ (splitRecords bs).2 = bs := by
  fun_induction splitRecords bs with
  | case1 => rfl
  | case2 b rest d read records left split ih =>
    rw [split] at ih
    have bounds := three_le_consumed read
    have next : rest.drop (d.consumed - 1) = (b :: rest).drop d.consumed := by
      rw [← List.drop_succ_cons (a := b), Nat.sub_add_cancel (by omega)]
    rw [joinRecords_cons, List.append_assoc, ih, next, List.take_append_drop]
  | case3 => rfl

theorem decode_left (bs : Bytes) :
    (splitRecords bs).2 = [] ∨ ∃ err, decode (splitRecords bs).2 = .error err := by
  fun_induction splitRecords bs with
  | case1 => exact .inl rfl
  | case2 b rest d read records left split ih =>
    rw [split] at ih
    exact ih
  | case3 b rest err failed => exact .inr ⟨err, failed⟩

/-- Records that bytes start with are among those that are split off. -/
theorem prefix_splitRecords (reads : ∀ r ∈ records, r.Reads) (rest : Bytes) :
    records <+: (splitRecords (joinRecords records ++ rest)).1 := by
  induction records with
  | nil => exact List.nil_prefix
  | cons r records ih =>
    rcases reads r List.mem_cons_self with ⟨read, whole⟩
    rw [joinRecords_cons, List.append_assoc, splitRecords_append read whole]
    exact List.prefix_cons_inj r |>.mpr (ih fun x mem => reads x (List.mem_cons_of_mem r mem))

theorem decodeRecords_eq (bs : Bytes) :
    decodeRecords bs =
      if (splitRecords bs).2 = [] ∨ (splitRecords bs).2.head? = some 0 then
        .ok ((splitRecords bs).1.map (·.decoded.display))
      else .error .malformed := by
  unfold decodeRecords
  rcases splitRecords bs with ⟨records, left⟩
  cases left with
  | nil => rfl
  | cons b rest =>
    have ended : decode (b :: rest) = .error .endOfProgram ↔ (b :: rest).head? = some 0 :=
      decode_endOfProgram_iff
    dsimp only
    split
    next stopped => rw [if_pos (.inr (ended.mp stopped))]
    next other =>
      rw [if_neg]
      rintro (empty | zero)
      · contradiction
      · exact other (ended.mpr zero)

/-! ### Loading -/

namespace Editor

/-- The records that a program is saved as after some have been loaded: a blank last one is left
out. -/
def keptRecords (records : List Record) : List Record :=
  if records.getLast?.map (·.bytes) = some [1, 47, 1] then records.dropLast else records

theorem flatMap_lineOfRecord (records : List Record) :
    (records.map lineOfRecord).flatMap Line.programBytes = joinRecords records := by
  rw [List.flatMap_map]
  rfl

theorem isBlank_lineOfRecord (reads : r.Reads) :
    (lineOfRecord r).isBlank = true ↔ r.bytes = [1, 47, 1] := by
  have fits : (lineOfRecord r).InStep := .compiled (by rw [reads.1, ← reads.2])
  rw [Line.isBlank, String.isEmpty_iff, fits.text_eq_empty_iff]
  exact and_iff_right rfl

theorem kept_lineOfRecord {s : Script} (reads : ∀ r ∈ records, r.Reads)
    (lines : s.lines = records.map lineOfRecord) :
    s.kept = (keptRecords records).map lineOfRecord := by
  unfold Script.kept keptRecords
  rw [lines]
  rcases List.eq_nil_or_concat records with rfl | ⟨init, last, rfl⟩
  · rfl
  · have blank := isBlank_lineOfRecord (reads last (by simp))
    by_cases empty : last.bytes = [1, 47, 1]
    · simp [blank.mpr empty, empty]
    · simp [mt blank.mp empty, empty]

structure Loading (e : Editor) (body : Bytes) (records : List Record) (left : Bytes) : Prop where
  whole : body = joinRecords records ++ left
  reads : ∀ r ∈ records, r.Reads
  /-- Any other run of records that the body starts with is part of them. -/
  longest : ∀ others rest, body = joinRecords others ++ rest → (∀ r ∈ others, r.Reads) →
    others <+: records
  ended : left = [] ∨ left.head? = some 0 ∨ decode left = .error .malformed
  inRange : ∀ bs d, decode bs = .ok d → 3 ≤ d.consumed ∧ d.consumed ≤ bs.length
  lines : (e.load (programPrologue :: body)).script.lines =
    if records = [] then [.blank]
    else records.map fun r => .compiled r.decoded.display r.bytes r.decoded.args
  strict : decodeRecords body =
    if left = [] ∨ left.head? = some 0 then .ok (records.map (·.decoded.display))
    else .error .malformed
  saved : (e.load (programPrologue :: body)).script.flatten =
    programPrologue :: (joinRecords (keptRecords records) ++ [programEpilogue])

/-- Whatever bytes are loaded, the lines are those of the longest run of records at their start. -/
theorem exists_loading (e : Editor) (room : 5 ≤ e.config.maxSize) (body : Bytes) :
    ∃ records left, e.Loading body records left := by
  have reads : ∀ r ∈ (splitRecords body).1, r.Reads := fun r mem => decode_of_mem_splitRecords mem
  have whole := joinRecords_splitRecords body
  have lines := lines_load room (programPrologue :: body)
  simp only [programBody, if_true, List.map_eq_nil_iff] at lines
  refine ⟨(splitRecords body).1, (splitRecords body).2, whole.symm, reads, ?_, ?_,
    fun _ _ read => ⟨three_le_consumed read, consumed_le read⟩, lines, decodeRecords_eq body, ?_⟩
  · intro others rest split among
    rw [split]
    exact prefix_splitRecords among rest
  · rcases decode_left body with empty | ⟨err, failed⟩
    · exact .inl empty
    · cases err with
      | endOfProgram => exact .inr (.inl (decode_endOfProgram_iff.mp failed))
      | malformed => exact .inr (.inr failed)
  · rw [Script.flatten_eq]
    by_cases none : (splitRecords body).1 = []
    · rw [if_pos none] at lines
      rw [none, Script.kept, lines]
      rfl
    · rw [if_neg none] at lines
      rw [kept_lineOfRecord reads lines, flatMap_lineOfRecord]

theorem loading_blank_last : ∃ records left,
    (Editor.new {}).Loading [1, 0, 1, 1, 47, 1, 9] records left ∧
      joinRecords (keptRecords records) = [1, 0, 1] := by
  rcases exists_loading (.new {}) (by decide) [1, 0, 1, 1, 47, 1, 9] with ⟨records, left, loading⟩
  refine ⟨records, left, loading, ?_⟩
  have saved := loading.saved
  have bytes : ((Editor.new {}).load (programPrologue :: [1, 0, 1, 1, 47, 1, 9])).script.flatten =
      [255, 1, 0, 1, 0] := by
    decide +kernel
  rw [bytes] at saved
  exact List.append_inj_left' (List.cons.inj saved).2.symm rfl

end Editor

end RobotScript
