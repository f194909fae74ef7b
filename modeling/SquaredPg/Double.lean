import SquaredPg.Bytes
import Mathlib.Algebra.Group.Nat.Defs
import Mathlib.Data.Nat.Log

namespace SquaredPg

/-- An IEEE 754 binary64 value, by its bits. -/
structure Double where
  bits : UInt64
  deriving DecidableEq

namespace Double

def negative (d : Double) : Bool := 2 ^ 63 ≤ d.bits.toNat

def biasedExponent (d : Double) : ℕ := d.bits.toNat / 2 ^ 52 % 2 ^ 11

def fraction (d : Double) : ℕ := d.bits.toNat % 2 ^ 52

def magnitude (d : Double) : ℕ × ℕ :=
  let mantissa := if d.biasedExponent = 0 then d.fraction else d.fraction + 2 ^ 52
  let exponent := max d.biasedExponent 1
  if 1075 ≤ exponent then (mantissa * 2 ^ (exponent - 1075), 1)
  else (mantissa, 2 ^ (1075 - exponent))

def roundDiv (n d : ℕ) : ℕ :=
  let q := n / d
  let r := n % d
  if 2 * r < d ∨ 2 * r = d ∧ q % 2 = 0 then q else q + 1

/-- The `e` with `base ^ e ≤ n / d < base ^ (e + 1)`. -/
def exponentOf (base n d : ℕ) : ℤ :=
  if d ≤ n then Nat.log base (n / d) else -(Nat.clog base ((d + n - 1) / n) : ℤ)

def scaled (base n d : ℕ) (e : ℤ) : ℕ :=
  if 0 ≤ e then roundDiv n (d * base ^ e.toNat) else roundDiv (n * base ^ (-e).toNat) d

/-- The `precision` significant decimal digits of `n / d` and its decimal exponent. -/
def significant (precision n d : ℕ) : ℕ × ℤ :=
  let x := exponentOf 10 n d
  let digits := scaled 10 n d (x - (precision - 1))
  if digits = 10 ^ precision then (10 ^ (precision - 1), x + 1) else (digits, x)

/-- The layout `%g` gives to digits with their trailing zeros removed. -/
def layoutG (precision : ℕ) (digits : Bytes) (x : ℤ) : Bytes :=
  let withPoint (whole rest : Bytes) := if rest = [] then whole else whole ++ Ascii.dot :: rest
  if x < -4 ∨ (precision : ℤ) ≤ x then
    let exponent := decimal x.natAbs
    withPoint (digits.take 1) (digits.drop 1) ++ ascii "e" ++ ascii (if x < 0 then "-" else "+") ++
      (if exponent.length < 2 then Ascii.zero :: exponent else exponent)
  else if x < 0 then
    ascii "0." ++ List.replicate ((-x).toNat - 1) Ascii.zero ++ digits
  else
    let whole := digits.take (x.toNat + 1)
    withPoint (whole ++ List.replicate (x.toNat + 1 - whole.length) Ascii.zero)
      (digits.drop (x.toNat + 1))

/-- `snprintf` with the format `%.{precision}g`; `%g` is the precision 6. -/
def printG (precision : ℕ) (d : Double) : Bytes :=
  let sign := if d.negative then ascii "-" else []
  if d.biasedExponent = 2047 then sign ++ ascii (if d.fraction = 0 then "inf" else "nan")
  else if d.magnitude.1 = 0 then sign ++ ascii "0"
  else
    let (digits, x) := significant precision d.magnitude.1 d.magnitude.2
    sign ++ layoutG precision ((decimal digits).rdropWhile (· = Ascii.zero)) x

/-- The double nearest to `± n / d`; `none` when that is an infinity. -/
def nearest (negative : Bool) (n d : ℕ) : Option Double :=
  let sign := if negative then 2 ^ 63 else 0
  if n = 0 then some ⟨UInt64.ofNat sign⟩
  else
    let e := max (exponentOf 2 n d - 52) (-1074)
    let m := scaled 2 n d e
    let (m, e) := if m = 2 ^ 53 then (2 ^ 52, e + 1) else (m, e)
    if 971 < e then none
    else if m < 2 ^ 52 then some ⟨UInt64.ofNat (sign + m)⟩
    else some ⟨UInt64.ofNat (sign + (e + 1075).toNat * 2 ^ 52 + (m - 2 ^ 52))⟩

end Double

end SquaredPg
