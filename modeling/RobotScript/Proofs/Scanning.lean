import RobotScript.Json.Printer
import RobotScript.Json.Reader
import RobotScript.Proofs.Spelling
import RobotScript.Proofs.Utf8
/-!
The bytes of a JSON document as it is written, scanned for tokens. Each string is read from behind
its quote as far as the next one that is not escaped; a numeral ends at the first byte that cannot
continue it.
-/
namespace RobotScript.Json.Token

variable {b : UInt8} {bs rest : Bytes} {c : Char} {cs : List Char} {ps qs : List Piece} {n : Nat}

/-! ### Strings -/

theorem pieces?_byte (low : 0x20 ≤ b.toNat) (noQuote : b ≠ 0x22) (noSlash : b ≠ 0x5C)
    (behind : pieces? rest = some (ps, n)) : pieces? (b :: rest) = some (.byte b :: ps, n + 1) := by
  have control : ¬ b < 0x20 := by
    rw [UInt8.lt_iff_toNat_lt]
    exact Nat.not_lt.mpr low
  unfold pieces?
  split <;> simp_all

theorem pieces?_bytes {plain : Bytes}
    (solid : ∀ b ∈ plain, 0x20 ≤ b.toNat ∧ b ≠ 0x22 ∧ b ≠ 0x5C)
    (behind : pieces? rest = some (ps, n)) :
    pieces? (plain ++ rest) = some (plain.map .byte ++ ps, n + plain.length) := by
  induction plain with
  | nil => exact behind
  | cons b plain ih =>
    obtain ⟨low, noQuote, noSlash⟩ := solid b List.mem_cons_self
    have others := ih fun x mem => solid x (List.mem_cons_of_mem b mem)
    exact pieces?_byte low noQuote noSlash others

theorem resolve_bytes (plain : Bytes) (ps : List Piece) :
    resolve (plain.map .byte ++ ps) = (resolve ps).map (plain ++ ·) := by
  induction plain with
  | nil => simp
  | cons b plain ih => simp [resolve, ih, Function.comp_def]

theorem pieces?_short {e : UInt8} (short : shortEscape? e = some b)
    (behind : pieces? rest = some (ps, n)) :
    pieces? (0x5C :: e :: rest) = some (.byte b :: ps, n + 2) := by
  have other : e ≠ 0x75 := by
    rintro rfl
    contradiction
  rw [pieces?]
  · simp [short, behind]
  · rintro a b c d rest' rfl
    exact absurd rfl other

theorem pieces?_unit {a b c d : UInt8} {unit : Nat} (four : unit? a b c d = some unit)
    (behind : pieces? rest = some (ps, n)) :
    pieces? (0x5C :: 0x75 :: a :: b :: c :: d :: rest) = some (.unit unit :: ps, n + 6) := by
  rw [pieces?]
  simp [four, behind]

theorem unit?_control : ∀ k < 0x20,
    Chars.encode ['\\', 'u', '0', '0', Nat.digitChar (k / 16), Nat.digitChar (k % 16)] =
      [0x5C, 0x75, 0x30, 0x30, UInt8.ofNat (Nat.digitChar (k / 16)).toNat,
        UInt8.ofNat (Nat.digitChar (k % 16)).toNat] ∧
    unit? 0x30 0x30 (UInt8.ofNat (Nat.digitChar (k / 16)).toNat)
      (UInt8.ofNat (Nat.digitChar (k % 16)).toNat) = some k := by
  decide +kernel

theorem resolve_control (low : n < 0x20) (ps : List Piece) :
    resolve (.unit n :: ps) = (resolve ps).map (Chars.encodeChar (Char.ofNat n) ++ ·) := by
  have high : isHigh n = false := by
    simp only [isHigh, Bool.and_eq_false_iff, decide_eq_false_iff_not]
    omega
  have last : isLow n = false := by
    simp only [isLow, Bool.and_eq_false_iff, decide_eq_false_iff_not]
    omega
  rw [resolve.eq_def]
  simp only [high, last, Bool.false_eq_true, if_false]

theorem solid_encodeChar (control : 0x20 ≤ c.toNat) (quote : c ≠ '"') (slash : c ≠ '\\') :
    ∀ b ∈ Chars.encodeChar c, 0x20 ≤ b.toNat ∧ b ≠ 0x22 ∧ b ≠ 0x5C := by
  have code : ∀ {d : Char}, c ≠ d → c.toNat ≠ d.toNat := fun other same =>
    other (Char.toNat_inj.mp same)
  have quoteCode : c.toNat ≠ 34 := code quote
  have slashCode : c.toNat ≠ 92 := code slash
  have bounds := Chars.toNat_bounds c
  have solid : ∀ m < 256, 0x20 ≤ m ∧ m ≠ 34 ∧ m ≠ 92 →
      0x20 ≤ (UInt8.ofNat m).toNat ∧ UInt8.ofNat m ≠ 0x22 ∧ UInt8.ofNat m ≠ 0x5C := by
    decide +kernel
  intro b mem
  unfold Chars.encodeChar at mem
  dsimp only at mem
  split at mem
  · simp only [List.mem_singleton] at mem
    subst mem
    exact solid _ (by omega) ⟨control, quoteCode, slashCode⟩
  split at mem
  · simp only [List.mem_cons, List.not_mem_nil, or_false] at mem
    rcases mem with rfl | rfl <;> exact solid _ (by omega) (by omega)
  split at mem
  · simp only [List.mem_cons, List.not_mem_nil, or_false] at mem
    rcases mem with rfl | rfl | rfl <;>
      exact solid _ (by omega) (by omega)
  · simp only [List.mem_cons, List.not_mem_nil, or_false] at mem
    rcases mem with rfl | rfl | rfl | rfl <;>
      exact solid _ (by omega) (by omega)

def Spells (qs : List Piece) (cs : List Char) : Prop :=
  ∀ ps, resolve (qs ++ ps) = (resolve ps).map (Chars.encode cs ++ ·)

theorem pieces?_escapeChar (c : Char) (behind : pieces? rest = some (ps, n)) :
    ∃ qs, pieces? (Chars.encode (escapeChar c) ++ rest) =
        some (qs ++ ps, n + (Chars.encode (escapeChar c)).length) ∧ Spells qs [c] := by
  have single : Chars.encode [c] = Chars.encodeChar c := by simp [Chars.encode]
  have short : ∀ {e b}, Chars.encode (escapeChar c) = [0x5C, e] → shortEscape? e = some b →
      Chars.encode [c] = [b] → ∃ qs, pieces? (Chars.encode (escapeChar c) ++ rest) =
        some (qs ++ ps, n + (Chars.encode (escapeChar c)).length) ∧ Spells qs [c] := by
    intro e b written read spelled
    rw [written]
    exact ⟨[.byte b], pieces?_short read behind, fun ps => spelled ▸ resolve_bytes [b] ps⟩
  by_cases named : c ∈ ['"', '\\', '\n', '\r', '\t', '\x08', '\x0c']
  · simp only [List.mem_cons, List.not_mem_nil, or_false] at named
    rcases named with rfl | rfl | rfl | rfl | rfl | rfl | rfl <;> exact short rfl rfl rfl
  simp only [List.mem_cons, List.not_mem_nil, or_false, not_or] at named
  obtain ⟨quote, slash, feed, ret, tab, back, form⟩ := named
  by_cases control : c.toNat < 0x20
  · have written : escapeChar c = ['\\', 'u', '0', '0', Nat.digitChar (c.toNat / 16),
        Nat.digitChar (c.toNat % 16)] := by
      simp [escapeChar, quote, slash, feed, ret, tab, back, form, control]
    obtain ⟨bytes, read⟩ := unit?_control c.toNat control
    rw [written, bytes]
    refine ⟨[.unit c.toNat], pieces?_unit read behind, fun ps => ?_⟩
    rw [List.singleton_append, resolve_control control, Char.ofNat_toNat, single]
  · have written : escapeChar c = [c] := by
      simp [escapeChar, quote, slash, feed, ret, tab, back, form, control]
    rw [written, single]
    exact ⟨_, pieces?_bytes (solid_encodeChar (Nat.not_lt.mp control) quote slash) behind,
      fun ps => single ▸ resolve_bytes _ ps⟩

theorem pieces?_escaped (cs : List Char) (behind : pieces? rest = some (ps, n)) :
    ∃ qs, pieces? (Chars.encode (cs.flatMap escapeChar) ++ rest) =
        some (qs ++ ps, n + (Chars.encode (cs.flatMap escapeChar)).length) ∧ Spells qs cs := by
  induction cs with
  | nil => exact ⟨[], behind, fun ps => by simp [Chars.encode]⟩
  | cons c cs ih =>
    obtain ⟨qs, read, spells⟩ := ih
    obtain ⟨qs', read', spells'⟩ := pieces?_escapeChar c read
    refine ⟨qs' ++ qs, ?_, fun ps => ?_⟩
    · rw [List.flatMap_cons, Chars.encode_append, List.append_assoc, read', List.append_assoc,
        List.length_append, Nat.add_assoc, Nat.add_comm (Chars.encode (escapeChar c)).length]
    · have split : Chars.encode (c :: cs) = Chars.encode [c] ++ Chars.encode cs :=
        Chars.encode_append [c] cs
      rw [List.append_assoc, spells', spells, split]
      simp [Function.comp_def]

theorem textOf_of_spells (spells : Spells qs cs) : textOf qs = some (String.ofList cs) := by
  have bytes := spells []
  rw [List.append_nil] at bytes
  simp [textOf, bytes, resolve, Chars.decode?_encode]

/-! ### Tokens -/

theorem scan?_space (space : isSpace b = true) : scan? (b :: rest) = scan? rest := by
  rw [scan?, if_pos space]

theorem scan?_first {t : Token} {size : Nat} (solid : isSpace b = false)
    (first : first? (b :: bs) = some (t, size + 1)) :
    scan? (b :: bs) = (scan? (bs.drop size)).map (t :: ·) := by
  rw [scan?, if_neg (by simp [solid]), first]
  simp only [Option.bind_eq_bind, Option.bind_some, Nat.add_sub_cancel]
  cases scan? (bs.drop size) <;> rfl

theorem scan?_newLine (level : Nat) (rest : Bytes) :
    scan? (Chars.encode (newLine level) ++ rest) = scan? rest := by
  have spaces : ∀ k, scan? (Chars.encode (List.replicate k ' ') ++ rest) = scan? rest := by
    intro k
    induction k with
    | zero => rfl
    | succ k ih => exact (scan?_space rfl).trans ih
  exact (scan?_space rfl).trans (spaces (2 * level))

theorem scan?_string (cs : List Char) (rest : Bytes) :
    scan? (Chars.encode (writeString cs) ++ rest) =
      (scan? rest).map (.string (some (String.ofList cs)) :: ·) := by
  have written : Chars.encode (writeString cs) ++ rest =
      0x22 :: (Chars.encode (cs.flatMap escapeChar) ++ 0x22 :: rest) := by
    have quotes : writeString cs = ['"'] ++ cs.flatMap escapeChar ++ ['"'] := rfl
    rw [quotes, Chars.encode_append, Chars.encode_append, List.append_assoc, List.append_assoc]
    rfl
  have closed : pieces? (0x22 :: rest) = some ([], 1) := rfl
  obtain ⟨qs, read, spells⟩ := pieces?_escaped cs closed
  rw [List.append_nil] at read
  have first : first? (0x22 :: (Chars.encode (cs.flatMap escapeChar) ++ 0x22 :: rest)) =
      some (.string (some (String.ofList cs)),
        1 + (Chars.encode (cs.flatMap escapeChar)).length + 1) := by
    have mark : mark? 0x22 = none := rfl
    simp [first?, mark, read, textOf_of_spells spells]
  rw [written, scan?_first rfl first, Nat.add_comm 1, ← List.drop_drop, List.drop_left]
  rfl

theorem scan?_mark {t : Token} (mark : mark? b = some t) (solid : isSpace b = false)
    (rest : Bytes) : scan? (b :: rest) = (scan? rest).map (t :: ·) := by
  have first : first? (b :: rest) = some (t, 0 + 1) := by simp [first?, mark]
  exact scan?_first solid first

theorem scan?_word {word : Bytes} {t : Token} (mem : (word, t) ∈ words) (rest : Bytes) :
    scan? (word ++ rest) = (scan? rest).map (t :: ·) := by
  simp only [words, List.mem_cons, Prod.mk.injEq, List.not_mem_nil, or_false] at mem
  rcases mem with ⟨rfl, rfl⟩ | ⟨rfl, rfl⟩ | ⟨rfl, rfl⟩
  · have first : first? ([0x6E, 0x75, 0x6C, 0x6C] ++ rest) = some (.null, 3 + 1) := by
      have mark : mark? 0x6E = none := rfl
      simp [first?, mark, words]
    exact scan?_first rfl first
  · have first : first? ([0x74, 0x72, 0x75, 0x65] ++ rest) = some (.bool true, 3 + 1) := by
      have mark : mark? 0x74 = none := rfl
      simp [first?, mark, words]
    exact scan?_first rfl first
  · have first : first? ([0x66, 0x61, 0x6C, 0x73, 0x65] ++ rest) = some (.bool false, 4 + 1) := by
      have mark : mark? 0x66 = none := rfl
      simp [first?, mark, words]
    exact scan?_first rfl first

/-! ### Numerals -/

/-- Whether some bytes cannot continue a numeral. -/
def Ends (rest : Bytes) : Prop :=
  ∀ b, rest.head? = some b → isDigit b = false ∧ b ≠ 0x2E ∧ b ≠ 0x65 ∧ b ≠ 0x45

theorem numeral_start (start : isDigit b = true ∨ b = 0x2D) :
    isSpace b = false ∧ mark? b = none ∧ b ≠ 0x22 ∧ b ≠ 0x6E ∧ b ≠ 0x74 ∧ b ≠ 0x66 := by
  have all : ∀ k < 256, (isDigit (UInt8.ofNat k) || UInt8.ofNat k == 0x2D) = true →
      isSpace (UInt8.ofNat k) = false ∧ mark? (UInt8.ofNat k) = none ∧ UInt8.ofNat k ≠ 0x22 ∧
        UInt8.ofNat k ≠ 0x6E ∧ UInt8.ofNat k ≠ 0x74 ∧ UInt8.ofNat k ≠ 0x66 := by
    decide +kernel
  have known := all b.toNat b.toNat_lt
  rw [UInt8.ofNat_toNat] at known
  exact known (by simpa using start)

theorem first?_numeral (start : isDigit b = true ∨ b = 0x2D) {numeral : Bytes}
    (read : numeralOf (b :: bs) = numeral) (nonempty : numeral ≠ []) :
    first? (b :: bs) = some (.number (numeral.map charOf), numeral.length) := by
  obtain ⟨-, mark, quote, n, t, f⟩ := numeral_start start
  have noWord : ∀ entry ∈ words, ¬ entry.1.isPrefixOf (b :: bs) = true := by
    simp [words, Ne.symm n, Ne.symm t, Ne.symm f]
  unfold first?
  simp only [mark, if_neg quote, List.find?_eq_none.mpr noWord]
  simp [read, nonempty]

theorem takeWhile_isDigit {digits : Bytes} (all : ∀ b ∈ digits, isDigit b = true)
    (ends : Ends rest) : (digits ++ rest).takeWhile isDigit = digits := by
  rw [List.takeWhile_append_of_pos all]
  cases rest with
  | nil => simp
  | cons b rest => simp [(ends b rfl).1]

/-- A sign and digits are read as one numeral: a zero that others follow would end it. -/
theorem numeralOf_append {sign digits : Bytes} (signed : sign = [] ∨ sign = [0x2D])
    (all : ∀ b ∈ digits, isDigit b = true) (nonempty : digits ≠ [])
    (zero : digits.head? = some 0x30 → digits = [0x30]) (ends : Ends rest) :
    numeralOf (sign ++ digits ++ rest) = sign ++ digits := by
  obtain ⟨d, ds, rfl⟩ := List.exists_cons_of_ne_nil nonempty
  have first : isDigit d = true := all d List.mem_cons_self
  have unsigned : (d == 0x2D) = false := by
    rw [beq_eq_false_iff_ne]
    rintro rfl
    contradiction
  have signs : ((sign ++ (d :: ds ++ rest)).takeWhile (· == 0x2D)).take 1 = sign := by
    rcases signed with rfl | rfl <;> simp [unsigned]
  have whole : wholeOf (d :: ds ++ rest) = d :: ds := by
    unfold wholeOf
    split
    next same =>
      cases same
      exact (zero rfl).symm
    next => exact takeWhile_isDigit all ends
  have noFraction : fractionOf rest = [] := by
    unfold fractionOf
    split
    next => exact absurd rfl (ends _ rfl).2.1
    next => rfl
  have noExponent : exponentOf rest = [] := by
    unfold exponentOf
    split
    next e rest =>
      obtain ⟨-, -, lower, upper⟩ := ends e rfl
      exact if_neg (not_or.mpr ⟨lower, upper⟩)
    next => rfl
  have behind : (sign ++ (d :: ds ++ rest)).drop (sign ++ d :: ds).length = rest := by
    rw [← List.append_assoc, List.drop_left]
  unfold numeralOf
  rw [List.append_assoc]
  simp only [signs, List.drop_left, whole, behind, noFraction, List.append_nil, noExponent]
  rfl

theorem map_charOf_encode (ascii : ∀ c ∈ cs, c.toNat < 0x80) :
    (Chars.encode cs).map charOf = cs := by
  induction cs with
  | nil => rfl
  | cons c cs ih =>
    have low := ascii c List.mem_cons_self
    have single : Chars.encodeChar c = [UInt8.ofNat c.toNat] := if_pos low
    have read : charOf (UInt8.ofNat c.toNat) = c := by
      rw [charOf, Chars.toNat_ofNat_byte (by omega), Char.ofNat_toNat]
    have others := ih fun x mem => ascii x (List.mem_cons_of_mem c mem)
    unfold Chars.encode at others ⊢
    rw [List.flatMap_cons, single, List.map_append, others, List.map_singleton, read]
    rfl

theorem isDigit_of_mem_encode (digits : ∀ c ∈ cs, c.isDigit = true) :
    ∀ b ∈ Chars.encode cs, isDigit b = true := by
  have all : ∀ m, 48 ≤ m → m ≤ 57 → isDigit (UInt8.ofNat m) = true := by
    have range : ∀ m < 58, 48 ≤ m → isDigit (UInt8.ofNat m) = true := by decide +kernel
    exact fun m low high => range m (by omega) low
  intro b mem
  obtain ⟨c, inside, byte⟩ := List.mem_flatMap.mp mem
  have bounds := Char.isDigit_iff_toNat.mp (digits c inside)
  have single : Chars.encodeChar c = [UInt8.ofNat c.toNat] := if_pos (by simp at bounds; omega)
  rw [single, List.mem_singleton] at byte
  exact byte ▸ all _ bounds.1 bounds.2

theorem decimal_zero (starts : (Chars.decimal n).head? = some '0') : Chars.decimal n = ['0'] := by
  induction n using Nat.strongRecOn with
  | ind n ih =>
    unfold Chars.decimal at starts ⊢
    by_cases short : n < 10
    · rw [Nat.toDigits_of_lt_base short] at starts ⊢
      rw [Option.some.inj starts]
    · have long : Nat.toDigits 10 n = Nat.toDigits 10 (n / 10) ++ [(n % 10).digitChar] :=
        Nat.toDigits_of_base_le (by decide) (Nat.not_lt.mp short)
      have higher : (Nat.toDigits 10 (n / 10)).head? = some '0' := by
        rwa [long, List.head?_append_of_ne_nil _ Nat.toDigits_ne_nil] at starts
      have digits := ih (n / 10) (by omega) higher
      have value := Chars.readDigits_decimal (n / 10)
      rw [digits] at value
      have zero : 0 = n / 10 := Option.some.inj value
      omega

theorem scan?_numeral {sign : List Char} (signed : sign = [] ∨ sign = ['-']) (n : Nat)
    (ends : Ends rest) :
    scan? (Chars.encode (sign ++ Chars.decimal n) ++ rest) =
      (scan? rest).map (.number (sign ++ Chars.decimal n) :: ·) := by
  have digits : ∀ c ∈ Chars.decimal n, c.isDigit = true := fun c => Chars.isDigit_of_mem_decimal
  have ascii : ∀ c ∈ sign ++ Chars.decimal n, c.toNat < 0x80 := by
    intro c mem
    rcases List.mem_append.mp mem with mem | mem
    · rcases signed with rfl | rfl <;> simp_all
    · have bounds := Char.isDigit_iff_toNat.mp (digits c mem)
      simp at bounds
      omega
  have text := map_charOf_encode ascii
  have wholeText := map_charOf_encode fun c mem => ascii c (List.mem_append_right sign mem)
  have all := isDigit_of_mem_encode digits
  have zero : (Chars.encode (Chars.decimal n)).head? = some 0x30 →
      Chars.encode (Chars.decimal n) = [0x30] := by
    intro starts
    have leading : (Chars.decimal n).head? = some '0' := by
      rw [← wholeText, List.head?_map, starts]
      rfl
    rw [decimal_zero leading]
    rfl
  have nonempty : Chars.encode (Chars.decimal n) ≠ [] := by
    intro none
    rw [none] at wholeText
    exact Nat.toDigits_ne_nil wholeText.symm
  have read : numeralOf (Chars.encode (sign ++ Chars.decimal n) ++ rest) =
      Chars.encode (sign ++ Chars.decimal n) := by
    rw [Chars.encode_append]
    refine numeralOf_append ?_ all nonempty zero ends
    rcases signed with rfl | rfl
    · exact .inl rfl
    · exact .inr rfl
  have start : ∃ b bs, Chars.encode (sign ++ Chars.decimal n) = b :: bs ∧
      (isDigit b = true ∨ b = 0x2D) := by
    rw [Chars.encode_append]
    rcases signed with rfl | rfl
    · obtain ⟨b, bs, bytes⟩ := List.exists_cons_of_ne_nil nonempty
      exact ⟨b, bs, bytes, .inl (all b (bytes ▸ List.mem_cons_self))⟩
    · exact ⟨0x2D, _, rfl, .inr rfl⟩
  obtain ⟨b, bs, bytes, start⟩ := start
  rw [bytes] at read text ⊢
  have first : first? (b :: (bs ++ rest)) =
      some (.number (sign ++ Chars.decimal n), bs.length + 1) :=
    text ▸ first?_numeral start read (List.cons_ne_nil b bs)
  rw [List.cons_append, scan?_first (numeral_start start).1 first, List.drop_left]

theorem scan?_number (z : Int) (ends : Ends rest) :
    scan? (Chars.encode (Chars.decimalInt z) ++ rest) =
      (scan? rest).map (.number (Chars.decimalInt z) :: ·) := by
  cases z with
  | ofNat n => exact scan?_numeral (.inl rfl) n ends
  | negSucc n => exact scan?_numeral (.inr rfl) (n + 1) ends

end RobotScript.Json.Token
