/-!
# Decimal texts of numbers

The size of a finite float is a natural number times a power of two, and decimal texts are made
from that fraction and not from float arithmetic. The shortest text is the one with the fewest
digits among those that are nearer to the float than to any other; with a fixed number of places
the exact value is rounded once, and a half goes to the even neighbour. A row of digits is read
as a word of 64 bits (`Decimal.word?_eq`).
-/

namespace NamedLambda

/-- `significand * 2 ^ exponent` -/
structure Magnitude where
  significand : Nat
  exponent : Int
  /-- Just above a power of two the next smaller float is half as far away as
  the next larger one. -/
  nearBelow : Bool
deriving DecidableEq

namespace Magnitude

/-- Infinities and NaN have no magnitude; they are read as if they had. -/
def ofFloat (x : Float) : Magnitude :=
  let bits := x.toBits.toNat
  let field : Nat := bits / Nat.pow 2 52 % Nat.pow 2 11
  let fraction : Nat := bits % Nat.pow 2 52
  if field = 0 then ⟨fraction, -1074, false⟩
  else ⟨Nat.pow 2 52 + fraction, (field : Int) - 1075, fraction = 0 && field > 1⟩

/-- The power of two by which numerators are scaled. -/
def unit (x : Magnitude) : Nat := Nat.pow 2 x.exponent.toNat

def numerator (x : Magnitude) : Nat := x.significand * x.unit

def denominator (x : Magnitude) : Nat := Nat.pow 2 (-x.exponent).toNat

end Magnitude

/-- `digits * 10 ^ exponent` -/
structure Decimal where
  digits : Nat
  exponent : Int
deriving DecidableEq

namespace Decimal

/-- Compares with the fraction `num / den`. -/
def compareFraction (d : Decimal) (num den : Nat) : Ordering :=
  compare (d.digits * Nat.pow 10 d.exponent.toNat * den) (num * Nat.pow 10 (-d.exponent).toNat)

def digitCount (n : Nat) : Nat := (Nat.toDigits 10 n).length

/-- Trailing zeros go into the exponent. -/
def dropZeros (d : Decimal) : (fuel : Nat) → Decimal
  | 0 => d
  | fuel + 1 =>
    if d.digits ≠ 0 && d.digits % 10 = 0 then
      dropZeros ⟨d.digits / 10, d.exponent + 1⟩ fuel
    else d

end Decimal

namespace Magnitude

/-- The decimals that stand for a float reach half-way to the floats beside
it. The float whose significand is even owns the half-way points. -/
def ownsDecimal (x : Magnitude) (d : Decimal) : Bool :=
  let den := 4 * x.denominator
  let low := (4 * x.significand - if x.nearBelow then 1 else 2) * x.unit
  let high := (4 * x.significand + 2) * x.unit
  let even := x.significand % 2 = 0
  let aboveLow := match d.compareFraction low den with
    | .gt => true
    | .eq => even
    | .lt => false
  let belowHigh := match d.compareFraction high den with
    | .lt => true
    | .eq => even
    | .gt => false
  aboveLow && belowHigh

/-- The number of digits before the point; it is negative by the zeros that
follow the point of a small fraction. -/
def pointPosition (x : Magnitude) : Int :=
  if x.denominator ≤ x.numerator then
    Decimal.digitCount (x.numerator / x.denominator)
  else 1 - (Decimal.digitCount ((x.denominator - 1) / x.numerator) : Int)

/-- The multiple of a power of ten just below the value, and the one above. -/
def neighbours (x : Magnitude) (exponent : Int) : Decimal × Decimal :=
  let digits :=
    x.numerator * Nat.pow 10 (-exponent).toNat / (x.denominator * Nat.pow 10 exponent.toNat)
  (⟨digits, exponent⟩, ⟨digits + 1, exponent⟩)

/-- The nearer of two neighbours; half-way between them the even one. -/
def nearer (x : Magnitude) (low high : Decimal) : Decimal :=
  let sum : Decimal := ⟨low.digits + high.digits, low.exponent⟩
  match sum.compareFraction (2 * x.numerator) x.denominator with
  | .gt => low
  | .lt => high
  | .eq => if low.digits % 2 = 0 then low else high

/-- The best decimal with a given number of digits, if one stands for `x`. -/
def withDigits? (x : Magnitude) (count : Nat) : Option Decimal :=
  let (low, high) := x.neighbours (x.pointPosition - count)
  match x.ownsDecimal low, x.ownsDecimal high with
  | true, true => some (x.nearer low high)
  | true, false => some low
  | false, true => some high
  | false, false => none

def exactDecimal (x : Magnitude) : Decimal :=
  if x.exponent < 0 then ⟨x.significand * Nat.pow 5 (-x.exponent).toNat, x.exponent⟩
  else ⟨x.numerator, 0⟩

/-- Seventeen digits always are enough. -/
def shortest (x : Magnitude) : Decimal :=
  if x.significand = 0 then ⟨0, 0⟩
  else
    let d := ((List.range 17).findSome? fun n => x.withDigits? (n + 1)).getD x.exactDecimal
    d.dropZeros 17

end Magnitude

namespace Decimal

/-- Positional down to five zeros after the point and up to sixteen digits
before it, with a zero after the point of a whole number; otherwise one digit
before the point, and an exponent. -/
def text (d : Decimal) : String :=
  let digits := toString d.digits
  let point := digits.length + d.exponent
  let zeros (n : Int) : String := "".pushn '0' n.toNat
  if d.digits = 0 then "0.0"
  else if 0 ≤ d.exponent ∧ point ≤ 16 then digits ++ zeros d.exponent ++ ".0"
  else if 0 < point ∧ point ≤ 16 then
    (digits.take point.toNat).toString ++ "." ++ (digits.drop point.toNat).toString
  else if -5 < point ∧ point ≤ 0 then "0." ++ zeros (-point) ++ digits
  else
    let fraction := (digits.drop 1).toString
    (digits.take 1).toString ++ (if fraction.isEmpty then "" else "." ++ fraction) ++ "e" ++
      toString (point - 1)

/-- The shortest text of a float, if it is a number and finite. -/
def writeShortest? (x : Float) : Option String :=
  if x.isNaN || x.isInf then none
  else
    let text := (Magnitude.ofFloat x).shortest.text
    some (if x.toBits >>> 63 = 1 then "-" ++ text else text)

/-- A quotient rounded to the nearest whole number. -/
def roundQuotient (num den : Nat) : Nat :=
  let q := num / den
  match compare (2 * (num % den)) den with
  | .lt => q
  | .gt => q + 1
  | .eq => if q % 2 = 0 then q else q + 1

/-- The rounded quotient is at most half a unit away. -/
theorem roundQuotient_near (num : Nat) {den : Nat} (h : 0 < den) :
    2 * (den * roundQuotient num den) ≤ 2 * num + den ∧
      2 * num ≤ 2 * (den * roundQuotient num den) + den := by
  have hsplit := Nat.div_add_mod num den
  have hlt := Nat.mod_lt num h
  have hsucc : den * (num / den + 1) = den * (num / den) + den := Nat.mul_succ ..
  simp only [roundQuotient]
  split
  · rename_i hc; rw [Nat.compare_eq_lt] at hc; omega
  · rename_i hc; rw [Nat.compare_eq_gt] at hc; omega
  · rename_i hc
    rw [Nat.compare_eq_eq] at hc
    split <;> omega

theorem even_roundQuotient_of_half {num den : Nat} (h : 2 * (num % den) = den) :
    roundQuotient num den % 2 = 0 := by
  have hc : compare (2 * (num % den)) den = .eq := Nat.compare_eq_eq.2 h
  simp only [roundQuotient, hc]
  split <;> omega

def fixedText (places units : Nat) : String :=
  let digits := toString units
  let padded := "".pushn '0' (places + 1 - digits.length) ++ digits
  let whole := padded.length - places
  if places = 0 then padded
  else (padded.take whole).toString ++ "." ++ (padded.drop whole).toString

/-- A float that is no number, or infinite, has a word for its text. -/
def writeFixed (places : Nat) (x : Float) : String :=
  if x.isNaN then "NaN"
  else
    let m := Magnitude.ofFloat x
    let size :=
      if x.isInf then "inf"
      else fixedText places (roundQuotient (m.numerator * Nat.pow 10 places) m.denominator)
    if x.toBits >>> 63 = 1 then "-" ++ size else size

def appendDigit? (n : Nat) (c : Char) : Option Nat :=
  let longer := 10 * n + (c.toNat - '0'.toNat)
  if longer < UInt64.size then some longer else none

def word? (digits : List Char) : Option Nat := digits.foldlM appendDigit? 0

theorem isDigit_of_mem_toString {n : Nat} {c : Char} (h : c ∈ (toString n).toList) :
    c.isDigit = true :=
  Nat.isDigit_of_mem_toDigits (b := 10) (by decide) (by decide) (by simpa using h)

theorem le_ofDigitChars (digits : List Char) (n : Nat) : n ≤ Nat.ofDigitChars 10 digits n := by
  induction digits generalizing n with
  | nil => exact Nat.le_refl n
  | cons c digits ih =>
    rw [Nat.ofDigitChars_cons]
    exact Nat.le_trans (by omega) (ih _)

/-- A number that has outgrown the word does not come back. -/
theorem foldlM_appendDigit? (digits : List Char) {n : Nat} (h : n < UInt64.size) :
    digits.foldlM appendDigit? n =
      if Nat.ofDigitChars 10 digits n < UInt64.size then some (Nat.ofDigitChars 10 digits n)
      else none := by
  induction digits generalizing n with
  | nil => simp [h]
  | cons c digits ih =>
    rw [List.foldlM_cons, Nat.ofDigitChars_cons]
    by_cases hroom : 10 * n + (c.toNat - '0'.toNat) < UInt64.size
    · rw [appendDigit?, if_pos hroom]
      exact ih hroom
    · have hle := le_ofDigitChars digits (10 * n + (c.toNat - '0'.toNat))
      rw [appendDigit?, if_neg hroom, if_neg (by omega)]
      rfl

theorem word?_eq (digits : List Char) :
    word? digits =
      if Nat.ofDigitChars 10 digits 0 < UInt64.size then some (Nat.ofDigitChars 10 digits 0)
      else none :=
  foldlM_appendDigit? digits (by decide)

end Decimal

end NamedLambda
