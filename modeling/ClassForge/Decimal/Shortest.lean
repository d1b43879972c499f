/-
# Shortest decimals

A finite floating point number `m · 2 ^ q` is written with the fewest decimal
digits that read back as the same number.  The reals that round to it form an
interval around it: half the distance to the next number on either side, the
ends included when `m` is even.  For one digit, two digits and so on, the two
neighbours of the number among the decimals of that many digits are tested
against the interval.  The first hit is taken; of two hits the nearer one, and
of two equally near ones the larger.

All arithmetic is exact, on natural numbers.
-/

import ClassForge.Ieee

namespace ClassForge
namespace Decimal

/-- A decimal `digits · 10 ^ exponent`. -/
structure Scaled where
  digits : Nat
  exponent : Int
deriving DecidableEq, Repr

/-- A positive number with its interval of rounding: the number, the least and
the greatest real that round to it, over one common denominator. -/
structure Interval where
  value : Nat
  least : Nat
  greatest : Nat
  denominator : Nat
  /-- Do the ends themselves round to the number? -/
  closed : Bool
deriving Repr

/-- The interval of rounding of `m · 2 ^ q`.  In units of a quarter of the last
place the next number is `4` above; below it is `4` away too, or `2` where the
exponent changes. -/
def Interval.ofFinite (f : Ieee.Format) (m : Nat) (q : Int) : Interval :=
  let below := if m = Nat.pow 2 f.fractionBits ∧ f.leastExponent < q then 1 else 2
  let up := Nat.pow 2 (q - 2).toNat
  { value := 4 * m * up
    least := (4 * m - below) * up
    greatest := (4 * m + 2) * up
    denominator := Nat.pow 2 (2 - q).toNat
    closed := m % 2 = 0 }

/-- The number of decimal digits of a natural number. -/
def width (n : Nat) : Nat := (Nat.toDigits 10 n).length

/-- The least `k` with `value < 10 ^ k`. -/
def Interval.magnitude (i : Interval) : Int :=
  let k : Int := width i.value - width i.denominator
  if i.value * Nat.pow 10 (-k).toNat < i.denominator * Nat.pow 10 k.toNat then k else k + 1

/-- The best multiple of `10 ^ e` in the interval, if there is one. -/
def Interval.multiple? (i : Interval) (e : Int) : Option Nat :=
  let scale := Nat.pow 10 (-e).toNat
  let unit := i.denominator * Nat.pow 10 e.toNat
  let inside (c : Nat) : Bool :=
    if i.closed then i.least * scale ≤ c * unit && c * unit ≤ i.greatest * scale
    else i.least * scale < c * unit && c * unit < i.greatest * scale
  let c := i.value * scale / unit
  match inside c, inside (c + 1) with
  | true, true => if 2 * (i.value * scale) < (2 * c + 1) * unit then some c else some (c + 1)
  | true, false => some c
  | false, true => some (c + 1)
  | false, false => none

/-- The decimal of `n`, `n + 1`, … digits, over `fuel` attempts, that the
interval holds. -/
def Interval.search (i : Interval) (magnitude : Int) : Nat → Nat → Scaled
  | 0, n => ⟨0, magnitude - n⟩
  | fuel + 1, n =>
    match i.multiple? (magnitude - n) with
    | some c => ⟨c, magnitude - n⟩
    | none => i.search magnitude fuel (n + 1)

/-- The fewest digits that read back as `m · 2 ^ q`.  Seventeen digits tell all
numbers of the formats apart. -/
def shortest (f : Ieee.Format) (m : Nat) (q : Int) : Scaled :=
  let i := Interval.ofFinite f m q
  i.search i.magnitude 17 1

/-- Where a decimal is written positionally: the least and the greatest
exponent of its first digit. -/
structure Style where
  leastExponent : Int
  greatestExponent : Int

/-- The digits of a decimal without trailing zeros, and the exponent of the
first of them. -/
def Scaled.scientific (d : Scaled) : List Char × Int :=
  let ds := Nat.toDigits 10 d.digits
  ((ds.reverse.dropWhile (· == '0')).reverse, d.exponent + (ds.length - 1 : Nat))

/-- The text of a decimal.  Positionally at least one digit stands after the
point; with an exponent there is a point only before further digits. -/
def Scaled.text (style : Style) (d : Scaled) : String :=
  let (ds, e) := d.scientific
  if style.leastExponent ≤ e ∧ e ≤ style.greatestExponent then
    if e < 0 then
      String.ofList ('0' :: '.' :: List.replicate (-e - 1).toNat '0' ++ ds)
    else
      let n := e.toNat + 1
      let whole := ds.take n ++ List.replicate (n - ds.length) '0'
      let rest := ds.drop n
      String.ofList (whole ++ '.' :: (if rest.isEmpty then ['0'] else rest))
  else
    let rest := ds.drop 1
    String.ofList (ds.take 1 ++ (if rest.isEmpty then [] else '.' :: rest)) ++ s!"e{e}"

/-- The text of a floating point number of the given format. -/
def text (style : Style) (f : Ieee.Format) : Ieee.Number → String
  | .nan => "NaN"
  | .infinite negative => if negative then "-inf" else "inf"
  | .finite negative m q =>
    let sign := if negative then "-" else ""
    sign ++ if m = 0 then "0.0" else (shortest f m q).text style

end Decimal
end ClassForge
