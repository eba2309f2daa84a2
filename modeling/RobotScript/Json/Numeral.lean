import RobotScript.Chars.Integer
/-!
The values of JSON numerals. A numeral gives an integer where one is asked for. Of any other
value it only matters whether it is in range: it is the product of two doubles, one for the
digits of the numeral and one for the power of ten that scales them, and this must not be
infinite.
-/
namespace RobotScript.Json

def integer? (numeral : List Char) : Option Int :=
  match numeral with
  | ['-', '0'] => none
  | '-' :: digits => (Chars.readDigits Chars.decimalValue? 10 digits).map fun n => -(n : Int)
  | digits => (Chars.readDigits Chars.decimalValue? 10 digits).map Int.ofNat

/-! ### Digits and scale -/

def maxSignificand : Nat := Nat.pow 2 64 - 1

/-- Takes up digits behind those of a significand, up to the first that does not fit. The digits
that are left over come second. -/
def takeDigits (significand : Nat) : List Char → Nat × List Char
  | [] => (significand, [])
  | c :: cs =>
    let longer := significand * 10 + (Chars.decimalValue? c).getD 0
    if longer ≤ maxSignificand then takeDigits longer cs else (significand, c :: cs)

def writtenExponent (scale : List Char) : Int :=
  match scale.drop 1 with
  | '-' :: digits => -(value digits : Int)
  | '+' :: digits => value digits
  | digits => value digits
where
  value (digits : List Char) : Nat := (Chars.readDigits Chars.decimalValue? 10 digits).getD 0

/-- The significand of a numeral and the power of ten that scales it, whatever its sign. A digit
of the whole part that does not fit still counts as a place; in the fraction, digits are taken up
anew, and what does not fit there is lost. -/
def scientific (numeral : List Char) : Nat × Int :=
  let (digits, scale) := (numeral.dropWhile (· == '-')).span fun c => c != 'e' && c != 'E'
  let (whole, rest) := digits.span (· != '.')
  let fraction := rest.drop 1
  let (significand, places) := takeDigits 0 whole
  let (significand, lost) := takeDigits significand fraction
  let taken := fraction.length - lost.length
  (significand, (places.length : Int) - taken + writtenExponent scale)

/-! ### Double precision -/

/-- The double nearest to a natural number: 53 binary digits, and of two neighbours that are
equally near the one whose last digit is even. -/
def nearestDouble (n : Nat) : Nat :=
  let unit := Nat.pow 2 (n.log2 - 52)
  let below := n / unit
  let excess := 2 * (n % unit)
  if unit < excess || (excess == unit && below % 2 == 1) then (below + 1) * unit else below * unit

def doubleLimit : Nat := Nat.pow 2 1024 - Nat.pow 2 970

def maxDecimalExponent : Nat := 308

/-- Whether the value of a numeral is in range. No value is too small: it may be rounded to zero. -/
def isFinite (numeral : List Char) : Bool :=
  let (significand, exponent) := scientific numeral
  if significand = 0 || exponent < 0 then true
  else if maxDecimalExponent < exponent then false
  else nearestDouble significand * nearestDouble (Nat.pow 10 exponent.toNat) < doubleLimit

end RobotScript.Json
