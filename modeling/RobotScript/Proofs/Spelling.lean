import Mathlib.Data.List.Forall2
import RobotScript.Operand
/-!
The canonical spellings of arguments. Each is the source of one token. Numbers read back always;
characters and colours read back as far as their values go, and texts unless they hold a quote.
-/
namespace RobotScript

namespace Chars

variable {cs : List Char} {c : Char} {n bound : Nat}

theorem trim_eq_self {last : Char} (starts : isBlank c = false) (stops : isBlank last = false)
    (ends : (c :: cs).getLast? = some last) : trim (c :: cs) = c :: cs := by
  obtain ⟨init, split⟩ := List.getLast?_eq_some_iff.mp ends
  have kept : trimStart (c :: cs) = c :: cs := by simp [trimStart, starts]
  rw [trim, kept, split]
  simp [trimEnd, stops]

theorem toNat_of_isAlphanum (h : c.isAlphanum = true) :
    ((65 ≤ c.toNat ∧ c.toNat ≤ 90) ∨ (97 ≤ c.toNat ∧ c.toNat ≤ 122)) ∨
      (48 ≤ c.toNat ∧ c.toNat ≤ 57) := by
  have ranges : c.isAlphanum = ((decide (65 ≤ c.val ∧ c.val ≤ 90) ||
      (decide (97 ≤ c.val) && decide (c.val ≤ 122))) ||
      (decide (48 ≤ c.val) && decide (c.val ≤ 57))) := rfl
  rw [ranges] at h
  simp only [Bool.or_eq_true, Bool.and_eq_true, decide_eq_true_eq, UInt32.le_iff_toNat_le] at h
  exact h

theorem isBlank_of_isAlphanum (h : c.isAlphanum = true) : isBlank c = false := by
  have bounds := toNat_of_isAlphanum h
  simp only [isBlank, Bool.or_eq_false_iff, Bool.and_eq_false_iff, decide_eq_false_iff_not,
    beq_eq_false_iff_ne]
  omega

theorem isAlphanum_of_isDigit (digit : c.isDigit = true) : c.isAlphanum = true := by
  simp [Char.isAlphanum, digit]

theorem toNat_ofNat (h : n < 0xD800) : (Char.ofNat n).toNat = n := by
  have valid : n.isValidChar := .inl h
  rw [Char.ofNat, dif_pos valid]
  rfl

/-! ### Decimal numbers -/

theorem foldlM_decimal {ds : List Char} (digits : ∀ d ∈ ds, d.isDigit = true) :
    ds.foldlM (fun n c => (decimalValue? c).map (n * 10 + ·)) n = some (Nat.ofDigitChars 10 ds n) := by
  induction ds generalizing n with
  | nil => simp
  | cons d ds ih =>
    have first : decimalValue? d = some (d.toNat - '0'.toNat) := by
      simp [decimalValue?, digits d List.mem_cons_self]
    rw [List.foldlM_cons, first, Option.map_some, Nat.ofDigitChars_cons, Nat.mul_comm 10]
    exact ih fun x mem => digits x (List.mem_cons_of_mem d mem)

theorem isDigit_of_mem_decimal {d : Char} (mem : d ∈ decimal n) : d.isDigit = true :=
  Nat.isDigit_of_mem_toDigits (by decide) (by decide) mem

theorem readDigits_decimal (n : Nat) : readDigits decimalValue? 10 (decimal n) = some n := by
  have nonempty : (decimal n).isEmpty = false := by simp [decimal]
  rw [readDigits, nonempty, if_neg (by simp), foldlM_decimal fun _ => isDigit_of_mem_decimal]
  simp [decimal]

theorem decimal_eq_cons (n : Nat) : ∃ d ds, decimal n = d :: ds ∧ d.isDigit = true := by
  cases written : decimal n with
  | nil => simp [decimal] at written
  | cons d ds => exact ⟨d, ds, rfl, isDigit_of_mem_decimal (written ▸ List.mem_cons_self)⟩

theorem readNat_decimal (n bound : Nat) :
    readNat bound (decimal n) = if n ≤ bound then some n else none := by
  have read := readDigits_decimal n
  obtain ⟨d, ds, written, digit⟩ := decimal_eq_cons n
  rw [written] at read ⊢
  unfold readNat readNatWith
  split
  next plus =>
    cases plus
    contradiction
  next => simp [read, Option.filter]

theorem readInt_decimalInt {low high z : Int} (least : low ≤ z) (greatest : z ≤ high) :
    readInt low high (decimalInt z) = some z := by
  cases z with
  | negSucc n =>
    have value : -((n + 1 : Nat) : Int) = .negSucc n := rfl
    have within : (low ≤ .negSucc n && .negSucc n ≤ high) = true := by
      rw [Bool.and_eq_true, decide_eq_true_eq, decide_eq_true_eq]
      exact ⟨least, greatest⟩
    simp only [decimalInt, readInt, readDigits_decimal]
    show (some (-((n + 1 : Nat) : Int))).filter (fun z => low ≤ z && z ≤ high) = some (.negSucc n)
    rw [value, Option.filter_some, if_pos within]
  | ofNat n =>
    have read := readDigits_decimal n
    obtain ⟨d, ds, written, digit⟩ := decimal_eq_cons n
    simp only [decimalInt]
    rw [written] at read ⊢
    unfold readInt
    split
    next minus =>
      cases minus
      contradiction
    next plus =>
      cases plus
      contradiction
    next =>
      rw [read]
      simpa [Option.filter] using ⟨least, greatest⟩

theorem decimalInt_spec (z : Int) :
    ∃ d ds, decimalInt z = d :: ds ∧ ∀ x ∈ d :: ds, x.isDigit = true ∨ x = '-' := by
  cases z with
  | ofNat n =>
    obtain ⟨d, ds, written, -⟩ := decimal_eq_cons n
    exact ⟨d, ds, written, fun x mem => .inl (isDigit_of_mem_decimal (written ▸ mem))⟩
  | negSucc n =>
    refine ⟨'-', decimal (n + 1), rfl, ?_⟩
    intro x mem
    rcases List.mem_cons.mp mem with rfl | mem
    · exact .inr rfl
    · exact .inl (isDigit_of_mem_decimal mem)

end Chars

namespace Color

variable {n : Nat}

theorem parse?_print (h : n ≤ max) : parse? (print n) = some n := by
  revert n
  decide +kernel

theorem isAlphanum_digit (n : Nat) : (digit n).isAlphanum = true := by
  have all : ∀ k < 16, (Nat.digitChar k).toUpper.isAlphanum = true := by decide
  exact all (n % 16) (Nat.mod_lt n (by decide))

theorem print_eq_cons (n : Nat) :
    ∃ b f, print n = ['c', b, f] ∧ ∀ x ∈ ['c', b, f], Chars.isBlank x = false := by
  have known : Chars.isBlank 'c' = false ∧ Chars.isBlank '?' = false := by decide
  have digits : ∀ m, Chars.isBlank (digit m) = false := fun m =>
    Chars.isBlank_of_isAlphanum (isAlphanum_digit m)
  unfold print
  split
  · exact ⟨_, _, rfl, by simp [known]⟩
  split
  · exact ⟨_, _, rfl, by simp [known, digits]⟩
  split
  · exact ⟨_, _, rfl, by simp [known, digits]⟩
  · exact ⟨_, _, rfl, by simp [known, digits]⟩

theorem parse?_decimalInt (z : Int) : parse? (Chars.decimalInt z) = none := by
  obtain ⟨d, ds, written, made⟩ := Chars.decimalInt_spec z
  have blank : ∀ x ∈ d :: ds, Chars.isBlank x = false := by
    intro x mem
    rcases made x mem with digit | rfl
    · exact Chars.isBlank_of_isAlphanum (Chars.isAlphanum_of_isDigit digit)
    · rfl
  have other : ¬ (d = 'c' ∨ d = 'C') := by
    rintro (rfl | rfl) <;> simpa using made _ List.mem_cons_self
  have trimmed : Chars.trim (d :: ds) = d :: ds :=
    Chars.trim_eq_self (blank d List.mem_cons_self)
      (blank _ (List.getLast_mem (List.cons_ne_nil d ds))) (List.getLast?_eq_some_getLast _)
  unfold parse?
  rw [written, trimmed]
  split
  next k b f same =>
    cases same
    exact if_neg other
  next => rfl

end Color

namespace Token

def Plain : Token → Prop
  | bare word => (∃ c cs, word = c :: cs ∧ c ≠ '"' ∧ c ≠ '\'') ∧ ∀ x ∈ word, Chars.isBlank x = false
  | quoted text => '"' ∉ text
  | char _ => True

end Token

namespace Operand

def Spelled (kind : ArgKind) : Operand → Prop
  | number w => (kind = .character → w.toNat ≤ 255) ∧ (kind = .color → w.toNat ≤ Color.max)
  | text cs => '"' ∉ cs

theorem signed_bounds (w : UInt16) : -0x8000 ≤ signed w ∧ signed w ≤ 0x7FFF := by
  have := w.toNat_lt
  unfold signed
  split <;> omega

theorem wordOfInt_signed (w : UInt16) : wordOfInt (signed w) = w := by
  have bound := w.toNat_lt
  have low : (signed w % 0x10000).toNat = w.toNat := by
    unfold signed
    split <;> omega
  rw [wordOfInt, low, UInt16.ofNat_toNat]

theorem readNumber?_decimalInt (w : UInt16) : readNumber? (Chars.decimalInt (signed w)) = some w := by
  have read := Chars.readInt_decimalInt (signed_bounds w).1 (signed_bounds w).2
  obtain ⟨d, ds, written, made⟩ := Chars.decimalInt_spec (signed w)
  rw [written] at read ⊢
  unfold readNumber?
  split
  next dollar =>
    cases dollar
    simpa using made '$' List.mem_cons_self
  next => rw [read, Option.map_some, wordOfInt_signed]

theorem plain_decimalInt (z : Int) : (Token.bare (Chars.decimalInt z)).Plain := by
  obtain ⟨d, ds, written, made⟩ := Chars.decimalInt_spec z
  rw [written]
  refine ⟨⟨d, ds, rfl, ?_, ?_⟩, ?_⟩
  · rintro rfl
    simpa using made '"' List.mem_cons_self
  · rintro rfl
    simpa using made '\'' List.mem_cons_self
  · intro x mem
    rcases made x mem with digit | rfl
    · exact Chars.isBlank_of_isAlphanum (Chars.isAlphanum_of_isDigit digit)
    · rfl

theorem plain_print (n : Nat) : (Token.bare (Color.print n)).Plain := by
  obtain ⟨b, f, written, blank⟩ := Color.print_eq_cons n
  rw [written]
  exact ⟨⟨'c', [b, f], rfl, by decide, by decide⟩, blank⟩

theorem plain_identifier {cs : List Char} (h : isIdentifier cs = true) : (Token.bare cs).Plain := by
  simp only [isIdentifier, Bool.and_eq_true, List.all_eq_true, Bool.or_eq_true, beq_iff_eq] at h
  obtain ⟨nonempty, all⟩ := h
  cases cs with
  | nil => contradiction
  | cons c cs =>
    refine ⟨⟨c, cs, rfl, ?_, ?_⟩, ?_⟩
    · rintro rfl
      simpa using all '"' List.mem_cons_self
    · rintro rfl
      simpa using all '\'' List.mem_cons_self
    · intro x mem
      rcases all x mem with ((letter | rfl) | rfl) | rfl
      · exact Chars.isBlank_of_isAlphanum letter
      all_goals rfl

theorem exists_token_number {kind : ArgKind} (numeric : kind.isNumeric = true) (w : UInt16) :
    ∃ token : Token, token.Plain ∧ token.source = render kind (number w) ∧
      (ofToken? kind token = some (number w) ↔ Spelled kind (number w)) := by
  cases kind with
  | word | str => contradiction
  | number =>
    refine ⟨.bare _, plain_decimalInt (signed w), rfl, ?_⟩
    simp [ofToken?, readNumber?_decimalInt, Spelled]
  | character =>
    by_cases printable : 32 ≤ w.toNat ∧ w.toNat < 127 ∧ w.toNat ≠ '\''.toNat
    · have code : (Char.ofNat w.toNat).toNat = w.toNat := Chars.toNat_ofNat (by omega)
      refine ⟨.char (Char.ofNat w.toNat), trivial, (if_pos printable).symm, ?_⟩
      simp [ofToken?, code, Spelled]
      omega
    · refine ⟨.bare (Chars.decimal w.toNat), plain_decimalInt (.ofNat w.toNat),
        (if_neg printable).symm, ?_⟩
      simp only [ofToken?, Chars.readNat_decimal, Spelled]
      split <;> simp_all
  | color =>
    by_cases known : w.toNat ≤ Color.max
    · refine ⟨.bare (Color.print w.toNat), plain_print _, (if_pos known).symm, ?_⟩
      simp [ofToken?, Color.parse?_print known, Spelled, known]
    · refine ⟨.bare (Chars.decimalInt (signed w)), plain_decimalInt _, (if_neg known).symm, ?_⟩
      simp [ofToken?, Color.parse?_decimalInt, Spelled, known]

theorem exists_token_text {kind : ArgKind} (textual : kind.isNumeric = false) {cs : List Char}
    (unquoted : '"' ∉ cs) :
    ∃ token : Token, token.Plain ∧ token.source = render kind (text cs) ∧
      ofToken? kind token = some (text cs) := by
  cases kind with
  | number | character | color => contradiction
  | str => exact ⟨.quoted cs, unquoted, rfl, rfl⟩
  | word =>
    by_cases bare : isIdentifier cs
    · exact ⟨.bare cs, plain_identifier bare, (if_pos bare).symm, rfl⟩
    · exact ⟨.quoted cs, unquoted, (if_neg bare).symm, rfl⟩

theorem render_of_mem {kind : ArgKind} {cs : List Char} (quoted : '"' ∈ cs) :
    render kind (text cs) = quote cs := by
  have unknown : isIdentifier cs = false := by
    by_contra identifier
    rw [Bool.not_eq_false] at identifier
    simp only [isIdentifier, Bool.and_eq_true, List.all_eq_true] at identifier
    simpa using identifier.2 '"' quoted
  cases kind <;> simp [render, unknown]

end Operand

end RobotScript
