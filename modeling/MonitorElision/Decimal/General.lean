/-!
# General decimal notation

A number is rounded to a fixed count of significant digits, a half going to the even neighbour, and
written without trailing zeros: positionally if its decimal exponent lies in a given range, and with
an exponent of at least two digits otherwise.
-/
namespace MonitorElision.Decimal

/-- Values whose decimal exponent is at least `least` and below `precision` are written
positionally. -/
structure General where
  precision : Nat
  least : Int
  deriving DecidableEq, Repr

/-- The fraction `num / den`, to the nearest integer, a half to the even one. -/
def roundHalfEven (num den : Nat) : Nat :=
  let q := num / den
  let r := num % den
  if 2 * r < den ∨ 2 * r = den ∧ q % 2 = 0 then q else q + 1

def digitCount (n : Nat) : Nat := (Nat.toDigits 10 n).length

/-- The exponent of the leading decimal digit of a positive fraction. -/
def exponent (num den : Nat) : Int :=
  if den ≤ num then digitCount (num / den) - 1
  else -digitCount ((den + num - 1) / num - 1)

/-- `places` significant digits of a positive fraction, as an integer, with its decimal exponent. -/
def significant (places num den : Nat) : Nat × Int :=
  let e := exponent num den
  let shift := e - (places - 1 : Nat)
  let n := roundHalfEven (num * Nat.pow 10 (-shift).toNat) (den * Nat.pow 10 shift.toNat)
  if n < Nat.pow 10 places then (n, e) else (n / 10, e + 1)

def stripZeros (digits : List Char) : List Char :=
  (digits.reverse.dropWhile (· = '0')).reverse

/-- The whole part and the digits after the point, if any are left. -/
def pointed (whole fraction : List Char) : String :=
  match stripZeros fraction with
  | [] => String.ofList whole
  | fraction => String.ofList (whole ++ '.' :: fraction)

def exponentText (e : Int) : String :=
  let digits := toString e.natAbs
  "e" ++ (if e < 0 then "-" else "+") ++ (if digits.length < 2 then "0" else "") ++ digits

namespace General

variable (f : General)

/-- The text of a positive fraction. -/
def fraction (num den : Nat) : String :=
  let (n, e) := significant f.precision num den
  let digits := Nat.toDigits 10 n
  if e < f.least ∨ (f.precision : Int) ≤ e then
    pointed (digits.take 1) (digits.drop 1) ++ exponentText e
  else if 0 ≤ e then
    pointed (digits.take (e.toNat + 1)) (digits.drop (e.toNat + 1))
  else
    pointed ['0'] (List.replicate ((-e).toNat - 1) '0' ++ digits)

/-- The text of `mantissa * 2 ^ e`. -/
def dyadic (mantissa : Nat) (e : Int) : String :=
  if mantissa = 0 then "0" else f.fraction (mantissa * Nat.pow 2 e.toNat) (Nat.pow 2 (-e).toNat)

/-- The text of a binary64 number given by its bits. -/
def binary64 (bits : UInt64) : String :=
  let sign := if bits >>> 63 = 1 then "-" else ""
  let field := ((bits >>> 52) &&& 0x7FF).toNat
  let rest := (bits &&& 0xFFFFFFFFFFFFF).toNat
  sign ++
    (if field = 0x7FF then (if rest = 0 then "inf" else "nan")
    else if field = 0 then f.dyadic rest (-1074)
    else f.dyadic (Nat.pow 2 52 + rest) ((field : Int) - 1075))

end General
end MonitorElision.Decimal
