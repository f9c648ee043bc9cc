/-!
# Decimal numbers as binary64 floats

A float written in decimal stands for the binary64 number nearest to it, ties going to the
even mantissa; one too large for the format is infinite. Shown again, the float is written
with the fewest significant digits that still name it: the shortest decimal inside its
rounding interval, and of those the nearest; of two equally near, the one of larger
magnitude. The interval reaches halfway to the neighbouring floats, and includes its ends
when the mantissa is even, since those ends round back to it.

All arithmetic is on exact rationals. Decimals far outside the range of the format are
settled by their number of digits alone, before any power is taken.
-/

namespace DotLint

namespace Toml

namespace Binary64

/-- A finite, non-negative binary64 number: `mantissa × 2 ^ exponent`, with a mantissa of 53
bits, or fewer at the least exponent. -/
structure Finite where
  mantissa : Nat
  exponent : Int
deriving DecidableEq, Repr

/-- The least exponent of a mantissa. -/
def minExponent : Int := -1074

/-- The least mantissa of a normal number, `2 ^ 52`. -/
def hiddenBit : Nat := Nat.pow 2 52

/-- `2 ^ e` as a rational. -/
def pow2 (e : Int) : Rat :=
  if 0 ≤ e then (Nat.pow 2 e.toNat : Rat) else 1 / (Nat.pow 2 (-e).toNat : Rat)

/-- `10 ^ e` as a rational. -/
def pow10 (e : Int) : Rat :=
  if 0 ≤ e then (Nat.pow 10 e.toNat : Rat) else 1 / (Nat.pow 10 (-e).toNat : Rat)

/-- The value of a finite number. -/
def Finite.value (f : Finite) : Rat := (f.mantissa : Rat) * pow2 f.exponent

/-- Rounds `x` to an integer, ties to even. -/
def roundHalfEven (x : Rat) : Nat :=
  let q := x.floor
  let r := x - q
  if r > 1 / 2 || (r == 1 / 2 && q % 2 == 1) then (q + 1).toNat else q.toNat

/-- The binary64 number nearest to a positive rational `v`, or `none` when it rounds to
infinity. -/
def nearest (v : Rat) : Option Finite :=
  let estimate : Int := (v.num.natAbs.log2 : Int) - (v.den.log2 : Int)
  let e0 := estimate - 52
  let e1 := if (v / pow2 e0).floor < (hiddenBit : Int) then e0 - 1 else e0
  let e2 := max e1 minExponent
  let q := roundHalfEven (v / pow2 e2)
  let (q, e2) := if q = 2 * hiddenBit then (hiddenBit, e2 + 1) else (q, e2)
  if e2 > 971 then none else some ⟨q, e2⟩

/-- The greatest `e` with `10 ^ e ≤ v`, for a positive rational `v`. -/
def log10Floor (v : Rat) : Int :=
  let guess : Int := (toString v.num.natAbs).length - (toString v.den).length
  let down := fun (e : Int) => if pow10 e > v then e - 1 else e
  let up := fun (e : Int) => if pow10 (e + 1) ≤ v then e + 1 else e
  up (up (down (down guess)))

/-- Removes the zeros at the end of `digits`, raising the exponent for each. -/
def trimZeros : Nat → Nat → Int → Nat × Int
  | 0, d, k => (d, k)
  | fuel + 1, d, k => if d ≠ 0 && d % 10 == 0 then trimZeros fuel (d / 10) (k + 1) else (d, k)

/-- The shortest decimal `digits × 10 ^ exp` that names `f`, nearest among the shortest and
the larger of two equally near; zero for zero. -/
def shortest (f : Finite) : Nat × Int :=
  if f.mantissa = 0 then (0, 0)
  else
    let v := f.value
    let below := if f.mantissa = hiddenBit && f.exponent > minExponent
      then pow2 (f.exponent - 2) else pow2 (f.exponent - 1)
    let low := v - below
    let high := v + pow2 (f.exponent - 1)
    let closed := f.mantissa % 2 == 0
    let inside := fun (x : Rat) => if closed then low ≤ x && x ≤ high else low < x && x < high
    let top := log10Floor v
    let attempt := fun (n : Nat) =>
      let k := top - n + 1
      let lo := (v / pow10 k).floor.toNat
      let hi := lo + 1
      let loIn := inside ((lo : Rat) * pow10 k)
      let hiIn := inside ((hi : Rat) * pow10 k)
      if loIn && hiIn then
        if v - (lo : Rat) * pow10 k < (hi : Rat) * pow10 k - v then some (lo, k) else some (hi, k)
      else if loIn then some (lo, k)
      else if hiIn then some (hi, k)
      else none
    let found := (List.range 17).findSome? fun i => attempt (i + 1)
    let (d, k) := found.getD (roundHalfEven (v / pow10 (top - 16)), top - 16)
    trimZeros 20 d k

/-- The float nearest to `digits × 10 ^ exp`, shown by its shortest digits and their
exponent; `none` when it is infinite. -/
def ofDecimal (digits : Nat) (exp : Int) : Option (Nat × Int) :=
  if digits = 0 then some (0, 0)
  else
    let magnitude : Int := (toString digits).length + exp
    if magnitude > 310 then none
    else if magnitude < -330 then some (0, 0)
    else (nearest ((digits : Rat) * pow10 exp)).map shortest

end Binary64

end Toml

end DotLint
