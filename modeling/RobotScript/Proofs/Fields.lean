import Mathlib.Data.List.TakeDrop
import Mathlib.Data.List.TakeWhile
import RobotScript.Bounds
import RobotScript.Json.Fields
import RobotScript.Proofs.Parsing
/-!
Reading a value out of the document that it is written as, field by field; and what holds of every
value that is read, whatever the document.
-/
namespace RobotScript.Json

variable {α β : Type} {z : Int} {n bound significand : Nat} {ds : List Char} {j : Json}

theorem mapM_eq_some {read : α → Option β} {xs : List α} {ys : List β} :
    xs.mapM read = some ys ↔ xs.map read = ys.map some := by
  induction xs generalizing ys with
  | nil => cases ys <;> simp
  | cons x xs ih =>
    cases ys with
    | nil => simp [Option.bind_eq_some_iff]
    | cons y ys => simp [Option.bind_eq_some_iff, ih]

/-! ### Values -/

theorem plain_ofString (s : String) : (ofString s).Plain := .string s

theorem plain_ofInt (z : Int) : (ofInt z).Plain := .number z rfl

theorem plain_ofMembers {members : List (String × Json)} (plain : ∀ m ∈ members, m.2.Plain) :
    (ofMembers members).Plain := by
  apply Plain.object
  · intro m mem
    obtain ⟨m, -, rfl⟩ := List.mem_map.mp mem
    rfl
  · intro m mem
    obtain ⟨m, inside, rfl⟩ := List.mem_map.mp mem
    exact plain m inside

theorem plain_array_map {write : α → Json} {xs : List α} (plain : ∀ x ∈ xs, (write x).Plain) :
    (array (xs.map write)).Plain := by
  apply Plain.array
  simpa using plain

@[simp] theorem text?_ofString (s : String) : (ofString s).text? = some s := rfl

theorem integer?_decimalInt (z : Int) : integer? (Chars.decimalInt z) = some z := by
  cases z with
  | ofNat n =>
    have value := Chars.readDigits_decimal n
    obtain ⟨d, ds, written, digit⟩ := Chars.decimal_eq_cons n
    simp only [Chars.decimalInt]
    rw [written] at value ⊢
    unfold integer?
    split
    next minus =>
      cases minus
      contradiction
    next minus =>
      cases minus
      contradiction
    next => rw [value, Option.map_some]
  | negSucc n =>
    have value := Chars.readDigits_decimal (n + 1)
    simp only [Chars.decimalInt]
    unfold integer?
    split
    next zero =>
      rw [(List.cons.inj zero).2] at value
      cases value
    next same =>
      rw [← (List.cons.inj same).2, value]
      rfl
    next other => exact absurd rfl (other _)

theorem int?_ofInt {low high : Int} (least : low ≤ z) (greatest : z ≤ high) :
    (ofInt z).int? low high = some z := by
  simp [ofInt, int?, integer?_decimalInt, Option.filter, least, greatest]

theorem nat?_ofInt (within : n ≤ bound) : (ofInt n).nat? bound = some n := by
  have read : (ofInt n).int? 0 bound = some (n : Int) := int?_ofInt (by omega) (by omega)
  simp [nat?, read]

theorem bounds_of_int? {low high : Int} (read : j.int? low high = some z) :
    low ≤ z ∧ z ≤ high := by
  cases j with
  | number numeral =>
    have within := (Option.filter_eq_some_iff.mp read).2
    simpa using within
  | _ => contradiction

theorem le_of_nat? (read : j.nat? bound = some n) : n ≤ bound := by
  obtain ⟨z, integer, rfl⟩ := Option.map_eq_some_iff.mp read
  have bounds := bounds_of_int? integer
  omega

/-! ### Integers in range -/

theorem takeDigits_eq (digits : ∀ d ∈ ds, d.isDigit = true)
    (fits : Nat.ofDigitChars 10 ds significand ≤ maxSignificand) :
    takeDigits significand ds = (Nat.ofDigitChars 10 ds significand, []) := by
  induction ds generalizing significand with
  | nil => rfl
  | cons d ds ih =>
    have value : Chars.decimalValue? d = some (d.toNat - '0'.toNat) := by
      simp [Chars.decimalValue?, digits d List.mem_cons_self]
    have others := fun x mem => digits x (List.mem_cons_of_mem d mem)
    rw [Nat.ofDigitChars_cons, Nat.mul_comm 10] at fits ⊢
    have grows : significand * 10 + (d.toNat - '0'.toNat) ≤ maxSignificand := by
      rw [Nat.ofDigitChars_eq_ofDigitChars_zero] at fits
      have scaled := Nat.le_mul_of_pos_left (significand * 10 + (d.toNat - '0'.toNat))
        (Nat.pow_pos (n := ds.length) (by decide : 0 < 10))
      omega
    rw [takeDigits, value, Option.getD_some, if_pos grows]
    exact ih others fits

theorem span_eq_self {p : Char → Bool} (all : ∀ d ∈ ds, p d = true) : ds.span p = (ds, []) := by
  rw [List.span_eq_takeWhile_dropWhile, List.takeWhile_eq_self_iff.mpr all,
    List.dropWhile_eq_nil_iff.mpr all]

theorem dropWhile_minus (z : Int) :
    (Chars.decimalInt z).dropWhile (· == '-') = Chars.decimal z.natAbs := by
  have digits : ∀ n, (Chars.decimal n).dropWhile (· == '-') = Chars.decimal n := by
    intro n
    obtain ⟨d, ds, written, digit⟩ := Chars.decimal_eq_cons n
    have other : (d == '-') = false := by
      rw [beq_eq_false_iff_ne]
      rintro rfl
      contradiction
    rw [written, List.dropWhile_cons_of_neg (by simp [other])]
  cases z with
  | ofNat n => exact digits n
  | negSucc n => exact digits (n + 1)

theorem scientific_decimalInt (fits : z.natAbs ≤ maxSignificand) :
    scientific (Chars.decimalInt z) = (z.natAbs, 0) := by
  have digits : ∀ d ∈ Chars.decimal z.natAbs, d.isDigit = true :=
    fun d => Chars.isDigit_of_mem_decimal
  have value : Nat.ofDigitChars 10 (Chars.decimal z.natAbs) 0 = z.natAbs :=
    Nat.ofDigitChars_ten_toDigits
  have noScale : (Chars.decimal z.natAbs).span (fun c => c != 'e' && c != 'E') =
      (Chars.decimal z.natAbs, []) := by
    apply span_eq_self
    intro d mem
    have digit := digits d mem
    simp only [Bool.and_eq_true, bne_iff_ne]
    constructor <;> rintro rfl <;> contradiction
  have noFraction : (Chars.decimal z.natAbs).span (· != '.') = (Chars.decimal z.natAbs, []) := by
    apply span_eq_self
    intro d mem
    have digit := digits d mem
    rw [bne_iff_ne]
    rintro rfl
    contradiction
  have taken : takeDigits 0 (Chars.decimal z.natAbs) = (z.natAbs, []) := by
    rw [takeDigits_eq digits (by rwa [value]), value]
  simp only [scientific, dropWhile_minus, noScale, noFraction, taken, List.drop_nil]
  rfl

theorem nearestDouble_le (n : Nat) : nearestDouble n ≤ 2 * n + 1 := by
  have unit : 2 ^ (n.log2 - 52) ≤ n + 1 := by
    by_cases zero : n = 0
    · simp [zero]
    · have power := Nat.log2_self_le zero
      have smaller : 2 ^ (n.log2 - 52) ≤ 2 ^ n.log2 := Nat.pow_le_pow_right (by decide) (by omega)
      omega
  have below : n / 2 ^ (n.log2 - 52) * 2 ^ (n.log2 - 52) ≤ n := Nat.div_mul_le_self n _
  unfold nearestDouble
  simp only [Nat.pow_eq]
  split
  · rw [Nat.add_mul]
    omega
  · omega

theorem isFinite_decimalInt (fits : z.natAbs ≤ Bounds.max64) :
    isFinite (Chars.decimalInt z) = true := by
  have one : nearestDouble 1 = 1 := by decide +kernel
  have limit : 2 * Bounds.max64 + 1 < doubleLimit := by decide +kernel
  have rounded := nearestDouble_le z.natAbs
  have small : nearestDouble z.natAbs < doubleLimit := by omega
  have inside : ¬ (maxDecimalExponent : Int) < 0 := by decide
  simp [isFinite, scientific_decimalInt fits, one, small, inside]

/-! ### Lists -/

theorem items?_array {read : Json → Option α} {write : α → Json} {xs : List α}
    (back : ∀ x ∈ xs, read (write x) = some x) : (array (xs.map write)).items? read = some xs := by
  rw [items?, mapM_eq_some, List.map_map]
  exact List.map_congr_left back

theorem forall_of_items? {read : Json → Option α} {P : α → Prop} {xs : List α}
    (each : ∀ {j x}, read j = some x → P x) (listed : j.items? read = some xs) :
    ∀ x ∈ xs, P x := by
  cases j with
  | array items =>
    intro x mem
    have same := mapM_eq_some.mp listed
    obtain ⟨item, -, value⟩ := List.mem_map.mp (same ▸ List.mem_map_of_mem (f := some) mem)
    exact each value
  | _ => contradiction

/-! ### Records -/

theorem filter_key {members : List (String × Json)} {m : String × Json}
    (distinct : (members.map (·.1)).Nodup) (mem : m ∈ members) :
    members.filter (·.1 == m.1) = [m] := by
  induction members with
  | nil => contradiction
  | cons first others ih =>
    obtain ⟨absent, distinct⟩ := List.nodup_cons.mp distinct
    have apart : ∀ other ∈ others, other.1 ≠ first.1 := by
      intro other inside same
      apply absent
      exact List.mem_map.mpr ⟨other, inside, same⟩
    rcases List.mem_cons.mp mem with rfl | mem
    · simpa [List.filter_cons] using fun k v => apart (k, v)
    · simp [ih distinct mem, (apart m mem).symm]

theorem member?_of_mem {members : List (String × Json)} {m : String × Json}
    (distinct : (members.map (·.1)).Nodup) (mem : m ∈ members) :
    member? (members.map fun (key, value) => (some key, value)) m.1 = some (some m.2) := by
  have found : (members.map fun (key, value) => (some key, value)).filter (·.1 == some m.1) =
      [(some m.1, m.2)] := by
    rw [List.filter_map]
    simp [Function.comp_def, filter_key distinct mem]
  rw [member?, found]

/-- A record gives back the fields that it is written with. -/
theorem fields?_ofMembers {members : List (String × Json)}
    (distinct : (members.map (·.1)).Nodup) :
    (ofMembers members).fields? (members.map (·.1)) = some (members.map fun m => some m.2) := by
  have texts : (members.map fun (key, value) => (some key, value)).all (·.1.isSome) = true := by
    simp
  rw [ofMembers, fields?, if_pos texts, mapM_eq_some, List.map_map, List.map_map]
  apply List.map_congr_left
  intro m mem
  exact member?_of_mem distinct mem

theorem of_required? {read : Json → Option α} {P : α → Prop} {x : α} {field : Option Json}
    (each : ∀ {j x}, read j = some x → P x) (given : required? read field = some x) : P x := by
  obtain ⟨j, -, value⟩ := Option.bind_eq_some_iff.mp given
  exact each value

theorem of_optional? {read : Json → Option α} {P : α → Prop} {default x : α}
    {field : Option Json} (spare : P default) (each : ∀ {j x}, read j = some x → P x)
    (given : optional? default read field = some x) : P x := by
  cases field with
  | none => exact Option.some.inj given ▸ spare
  | some j => exact each given

end RobotScript.Json
