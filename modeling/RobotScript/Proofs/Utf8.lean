import RobotScript.Text
/-!
Reading undoes writing: the bytes of a text are read as its characters again, whatever follows
them. Cuts keep whole characters and stay within their budget.
-/
namespace RobotScript.Chars

theorem toNat_ofNat_byte {n : Nat} (h : n < 256) : (UInt8.ofNat n).toNat = n :=
  UInt8.toNat_ofNat_of_lt' h

theorem toNat_bounds (c : Char) : c.toNat < 0xD800 ∨ 0xDFFF < c.toNat ∧ c.toNat < 0x110000 :=
  c.valid

/-! ### Reading a character -/

theorem partsFrom_cons (pending : Option Partial) (b : UInt8) (bs : Bytes) :
    partsFrom pending (b :: bs) =
      (step pending b.toNat).1 ++ partsFrom (step pending b.toNat).2 bs := rfl

theorem partsFrom_ascii {n : Nat} (h : n < 0x80) (rest : Bytes) :
    partsFrom none (UInt8.ofNat n :: rest) = some (Char.ofNat n) :: partsFrom none rest := by
  rw [partsFrom_cons, toNat_ofNat_byte (by omega)]
  simp [step, begin, h]

theorem partsFrom_lead {b : Nat} {p : Partial} (hb : b < 256) (h : 0x80 ≤ b)
    (hp : lead? b = some p) (rest : Bytes) :
    partsFrom none (UInt8.ofNat b :: rest) = partsFrom (some p) rest := by
  rw [partsFrom_cons, toNat_ofNat_byte hb]
  simp [step, begin, Nat.not_lt.mpr h, hp]

theorem partsFrom_next {p : Partial} {b : Nat} (hb : b < 256) (low : p.low ≤ b)
    (high : b ≤ p.high) (due : 1 < p.due) (rest : Bytes) :
    partsFrom (some p) (UInt8.ofNat b :: rest) =
      partsFrom (some ⟨p.bits * 64 + (b - 0x80), p.due - 1, 0x80, 0xBF⟩) rest := by
  rw [partsFrom_cons, toNat_ofNat_byte hb]
  simp [step, low, high, Nat.not_le.mpr due]

theorem partsFrom_last {p : Partial} {b n : Nat} (hb : b < 256) (low : p.low ≤ b)
    (high : b ≤ p.high) (due : p.due ≤ 1) (value : p.bits * 64 + (b - 0x80) = n) (rest : Bytes) :
    partsFrom (some p) (UInt8.ofNat b :: rest) = some (Char.ofNat n) :: partsFrom none rest := by
  rw [partsFrom_cons, toNat_ofNat_byte hb]
  simp [step, low, high, due, value]

/-- The second byte of a longer character lies in the range that its first byte announces: the
spelling is the shortest, and no surrogate. -/
theorem lead?_three {n : Nat} (low : 0x800 ≤ n) (high : n < 0x10000)
    (valid : n < 0xD800 ∨ 0xDFFF < n) :
    ∃ p, lead? (0xE0 + n / 4096) = some p ∧ p.bits = n / 4096 ∧ p.due = 2 ∧
      p.low ≤ 0x80 + n / 64 % 64 ∧ 0x80 + n / 64 % 64 ≤ p.high := by
  by_cases short : n / 4096 = 0
  · exact ⟨⟨0, 2, 0xA0, 0xBF⟩, by simp [lead?, short], short.symm, rfl, by dsimp only; omega,
      by dsimp only; omega⟩
  by_cases surrogates : n / 4096 = 0xD
  · exact ⟨⟨0xD, 2, 0x80, 0x9F⟩, by simp [lead?, surrogates], surrogates.symm, rfl,
      by dsimp only; omega, by dsimp only; omega⟩
  refine ⟨⟨n / 4096, 2, 0x80, 0xBF⟩, ?_, rfl, rfl, by dsimp only; omega, by dsimp only; omega⟩
  unfold lead?
  rw [if_neg (by omega), if_neg (by omega), if_neg (by omega), if_pos (by omega)]
  simp

theorem lead?_four {n : Nat} (low : 0x10000 ≤ n) (high : n < 0x110000) :
    ∃ p, lead? (0xF0 + n / 262144) = some p ∧ p.bits = n / 262144 ∧ p.due = 3 ∧
      p.low ≤ 0x80 + n / 4096 % 64 ∧ 0x80 + n / 4096 % 64 ≤ p.high := by
  by_cases short : n / 262144 = 0
  · exact ⟨⟨0, 3, 0x90, 0xBF⟩, by simp [lead?, short], short.symm, rfl, by dsimp only; omega,
      by dsimp only; omega⟩
  by_cases last : n / 262144 = 4
  · exact ⟨⟨4, 3, 0x80, 0x8F⟩, by simp [lead?, last], last.symm, rfl, by dsimp only; omega,
      by dsimp only; omega⟩
  refine ⟨⟨n / 262144, 3, 0x80, 0xBF⟩, ?_, rfl, rfl, by dsimp only; omega, by dsimp only; omega⟩
  unfold lead?
  rw [if_neg (by omega), if_neg (by omega), if_neg (by omega), if_neg (by omega),
    if_neg (by omega), if_pos (by omega)]
  simp

theorem lead?_two {n : Nat} (low : 0x80 ≤ n) (high : n < 0x800) :
    lead? (0xC0 + n / 64) = some ⟨n / 64, 1, 0x80, 0xBF⟩ := by
  unfold lead?
  rw [if_pos (by omega)]
  simp

theorem partsFrom_encodeChar (c : Char) (rest : Bytes) :
    partsFrom none (encodeChar c ++ rest) = some c :: partsFrom none rest := by
  have bounds := toNat_bounds c
  -- The bits of the bytes, put together, are the value of the character again.
  suffices h : ∀ n, n = c.toNat → partsFrom none (encodeChar c ++ rest) =
      some (Char.ofNat n) :: partsFrom none rest by
    simpa using h c.toNat rfl
  intro n hn
  unfold encodeChar
  simp only [← hn] at bounds ⊢
  split
  · exact partsFrom_ascii (by assumption) rest
  split
  · rw [List.cons_append, partsFrom_lead (by omega) (by omega) (lead?_two (by omega) (by omega)),
      List.cons_append]
    exact partsFrom_last (by omega) (by dsimp only; omega) (by dsimp only; omega) (Nat.le_refl 1)
      (by dsimp only; omega) rest
  split
  · obtain ⟨p, lead, bits, due, low, high⟩ :=
      lead?_three (n := n) (by omega) (by omega) (by omega)
    rw [List.cons_append, partsFrom_lead (by omega) (by omega) lead, List.cons_append,
      partsFrom_next (by omega) low high (by omega), List.cons_append]
    exact partsFrom_last (by omega) (by dsimp only; omega) (by dsimp only; omega)
      (by dsimp only; omega) (by dsimp only; omega) rest
  · obtain ⟨p, lead, bits, due, low, high⟩ := lead?_four (n := n) (by omega) (by omega)
    rw [List.cons_append, partsFrom_lead (by omega) (by omega) lead, List.cons_append,
      partsFrom_next (by omega) low high (by omega), List.cons_append,
      partsFrom_next (by omega) (by dsimp only; omega) (by dsimp only; omega)
        (by dsimp only; omega), List.cons_append]
    exact partsFrom_last (by omega) (by dsimp only; omega) (by dsimp only; omega)
      (by dsimp only; omega) (by dsimp only; omega) rest

theorem encode_append (as bs : List Char) : encode (as ++ bs) = encode as ++ encode bs :=
  List.flatMap_append

theorem parts_encode (cs : List Char) : parts (encode cs) = cs.map some := by
  unfold parts
  induction cs with
  | nil => rfl
  | cons c cs ih =>
    rw [encode, List.flatMap_cons, partsFrom_encodeChar]
    exact congrArg (some c :: ·) ih

@[simp] theorem decodeLossy_encode (cs : List Char) : decodeLossy (encode cs) = cs := by
  rw [decodeLossy, parts_encode, List.map_map]
  exact List.map_id cs

theorem decode?_encode (cs : List Char) : decode? (encode cs) = some cs := by
  rw [decode?, parts_encode]
  induction cs with
  | nil => rfl
  | cons c cs ih => simp [ih]

/-! ### Widths and cuts -/

@[simp] theorem width_nil : width [] = 0 := rfl

@[simp] theorem width_cons (c : Char) (cs : List Char) : width (c :: cs) = c.utf8Size + width cs :=
  rfl

@[simp] theorem width_append (as bs : List Char) : width (as ++ bs) = width as + width bs := by
  induction as with
  | nil => simp
  | cons c as ih => simp [ih, Nat.add_assoc]

theorem length_encodeChar (c : Char) : (encodeChar c).length = c.utf8Size := by
  have h : c.val.toNat = c.toNat := rfl
  unfold encodeChar Char.utf8Size
  simp only [UInt32.le_iff_toNat_le, h]
  split
  · rw [if_pos (by simp; omega)]
    rfl
  split
  · rw [if_neg (by simp; omega), if_pos (by simp; omega)]
    rfl
  split
  · rw [if_neg (by simp; omega), if_neg (by simp; omega), if_pos (by simp; omega)]
    rfl
  · rw [if_neg (by simp; omega), if_neg (by simp; omega), if_neg (by simp; omega)]
    rfl

@[simp] theorem length_encode (cs : List Char) : (encode cs).length = width cs := by
  induction cs with
  | nil => rfl
  | cons c cs ih =>
    have ih : (cs.flatMap encodeChar).length = width cs := ih
    rw [encode, List.flatMap_cons, List.length_append, length_encodeChar, ih, width]

theorem width_cut_le (budget : Nat) (cs : List Char) : width (cut budget cs) ≤ budget := by
  induction cs generalizing budget with
  | nil => simp [cut]
  | cons c cs ih =>
    unfold cut
    split
    · have := ih (budget - c.utf8Size)
      simp only [width]
      omega
    · simp [width]

theorem cut_start (budget : Nat) (cs : List Char) : cut budget cs <+: cs := by
  induction cs generalizing budget with
  | nil => exact List.prefix_rfl
  | cons c cs ih =>
    unfold cut
    split
    · exact (List.prefix_cons_inj c).mpr (ih _)
    · exact List.nil_prefix

theorem prefix_cut {budget : Nat} {ps cs : List Char} (starts : ps <+: cs)
    (fits : width ps ≤ budget) : ps <+: cut budget cs := by
  induction cs generalizing budget ps with
  | nil => exact starts
  | cons c cs ih =>
    cases ps with
    | nil => exact List.nil_prefix
    | cons p ps =>
      obtain ⟨rfl, others⟩ := List.cons_prefix_cons.mp starts
      rw [width] at fits
      rw [cut, if_pos (by omega)]
      exact (List.prefix_cons_inj p).mpr (ih others (by omega))

theorem cut_eq_self {budget : Nat} {cs : List Char} (fits : width cs ≤ budget) :
    cut budget cs = cs :=
  (cut_start budget cs).eq_of_length_le (prefix_cut List.prefix_rfl fits).length_le

theorem cut_ne_nil {budget : Nat} (h : 4 ≤ budget) {cs : List Char} (hcs : cs ≠ []) :
    cut budget cs ≠ [] := by
  cases cs with
  | nil => contradiction
  | cons c cs =>
    have := c.utf8Size_le_four
    rw [cut, if_pos (by omega)]
    simp

end RobotScript.Chars

namespace RobotScript.Text

theorem size_cut_le (budget : Nat) (s : String) : size (cut budget s) ≤ budget := by
  simpa [size, cut] using Chars.width_cut_le budget s.toList

theorem cut_eq_self {budget : Nat} {s : String} (fits : size s ≤ budget) :
    cut budget s = s := by
  rw [cut, Chars.cut_eq_self fits, String.ofList_toList]

theorem cut_ne_empty {budget : Nat} (h : 4 ≤ budget) {s : String} (hs : s ≠ "") :
    cut budget s ≠ "" := by
  have hcs : s.toList ≠ [] := by simpa using hs
  simpa [cut] using Chars.cut_ne_nil h hcs

/-- Whether a text is the longest beginning of another that takes at most `budget` bytes. -/
def IsLongest (budget : Nat) (s t : String) : Prop :=
  t.toList <+: s.toList ∧ size t ≤ budget ∧
    ∀ u, u <+: s.toList → Chars.width u ≤ budget → u <+: t.toList

theorem isLongest_cut (budget : Nat) (s : String) : IsLongest budget s (cut budget s) := by
  refine ⟨?_, size_cut_le budget s, fun u starts fits => ?_⟩
  · simpa [cut] using Chars.cut_start budget s.toList
  · simpa [cut] using Chars.prefix_cut starts fits

theorem IsLongest.eq_of_size_le {budget : Nat} {s t : String} (longest : IsLongest budget s t)
    (fits : size s ≤ budget) : t = s := by
  obtain ⟨starts, -, greatest⟩ := longest
  have whole := greatest s.toList List.prefix_rfl fits
  exact String.toList_inj.mp (starts.eq_of_length_le whole.length_le)

end RobotScript.Text
