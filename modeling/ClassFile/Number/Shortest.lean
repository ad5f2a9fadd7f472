/-
# Binary fractions in the fewest decimal digits

A floating-point literal is kept as its bit pattern (`Single`, `Double`), so that the payload
of a NaN and the sign of a zero survive.  To show one, its bits are decoded into `m * 2 ^ q`,
and the digits are the fewest that read back to the same bits:

* the numbers that read back are an interval around the value, half way to its neighbours on
  each side, with its ends exactly when `m` is even (`Interval.contains`);
* on the grid of numbers with `n` digits the two neighbours of the value are tried, for
  `n = 1, 2, …`; the first grid with a neighbour inside wins, of two the nearer one, and of
  two at the same distance the upper one (`shortest`).

All of it is exact arithmetic on natural numbers.
-/
namespace ClassFile

/-! ## 1. Bit patterns -/

/-- A 32 bit floating-point number, given by its bits. -/
structure Single where
  bits : UInt32
  deriving DecidableEq, Hashable, Repr, Inhabited

/-- A 64 bit floating-point number, given by its bits. -/
structure Double where
  bits : UInt64
  deriving DecidableEq, Hashable, Repr, Inhabited

namespace Number

/-- The widths of the two parts of a binary format below the sign: fraction and exponent. -/
structure Format where
  fraction : Nat
  exponent : Nat

/-- The format of a `Single`. -/
def singleFormat : Format := ⟨23, 8⟩

/-- The format of a `Double`. -/
def doubleFormat : Format := ⟨52, 11⟩

/-- What a bit pattern stands for: a number `significand * 2 ^ power` with a sign, or one of
the two kinds of pattern that are not numbers. -/
inductive Decoded where
  | nan
  | infinite (negative : Bool)
  | finite (negative : Bool) (significand : Nat) (power : Int) (narrowBelow : Bool)

/-- Decodes a bit pattern.  `narrowBelow` says that the next smaller number is only half as far
away as the next larger one, which happens at a power of two. -/
def Format.decode (f : Format) (bits : Nat) : Decoded :=
  let fraction := bits % Nat.pow 2 f.fraction
  let exponent := bits / Nat.pow 2 f.fraction % Nat.pow 2 f.exponent
  let negative := bits / Nat.pow 2 (f.fraction + f.exponent) % 2 = 1
  let bias : Int := Nat.pow 2 (f.exponent - 1) - 1 + f.fraction
  if exponent = Nat.pow 2 f.exponent - 1 then
    if fraction = 0 then .infinite negative else .nan
  else if exponent = 0 then .finite negative fraction (1 - bias) false
  else .finite negative (Nat.pow 2 f.fraction + fraction) (exponent - bias)
    (fraction = 0 ∧ 1 < exponent)

/-! ## 2. The interval that reads back -/

/-- The values `low / denominator` and `high / denominator` around `value / denominator`
between which a number reads back to the same bits. -/
structure Interval where
  low : Nat
  value : Nat
  high : Nat
  denominator : Nat
  closed : Bool

/-- The interval around `m * 2 ^ q`. -/
def Interval.around (m : Nat) (q : Int) (narrowBelow : Bool) : Interval :=
  let up := Nat.pow 2 (q - 2).toNat
  let down := Nat.pow 2 (2 - q).toNat
  { low := (4 * m - if narrowBelow then 1 else 2) * up
    value := 4 * m * up
    high := (4 * m + 2) * up
    denominator := down
    closed := m % 2 = 0 }

/-- Does `d * unit / scale` lie in the interval? -/
def Interval.contains (i : Interval) (d unit scale : Nat) : Bool :=
  let point := d * unit * i.denominator
  if i.closed then i.low * scale ≤ point && point ≤ i.high * scale
  else i.low * scale < point && point < i.high * scale

/-! ## 3. The fewest digits -/

/-- The least `k ≥ start` with `p k`, or `start + fuel`. -/
def leastFrom (p : Nat → Bool) : Nat → Nat → Nat
  | 0, start => start
  | fuel + 1, start => if p start then start else leastFrom p fuel (start + 1)

/-- The exponent `e` with `10 ^ (e - 1) ≤ value / denominator < 10 ^ e`, for a positive value
between `10 ^ -400` and `10 ^ 400`. -/
def magnitude (value denominator : Nat) : Int :=
  if denominator ≤ value then
    leastFrom (fun k => value < denominator * Nat.pow 10 k) 400 0
  else
    1 - (leastFrom (fun k => denominator ≤ value * Nat.pow 10 k) 400 0 : Nat)

/-- Decimal digits with the place of the point: the number is `0.d₁d₂… * 10 ^ exponent`. -/
structure Decimal where
  digits : List Char
  exponent : Int

/-- The number with `n` digits and exponent `e` that is nearest to the value, if it lies in the
interval. -/
def Interval.onGrid (i : Interval) (e : Int) (n : Nat) : Option Nat :=
  let unit := Nat.pow 10 (e - n).toNat
  let scale := Nat.pow 10 ((n : Int) - e).toNat
  let below := i.value * scale / (unit * i.denominator)
  let above := below + 1
  let remainder := i.value * scale - below * unit * i.denominator
  let nearer := if 2 * remainder < unit * i.denominator then [below, above] else [above, below]
  nearer.find? fun d => i.contains d unit scale

/-- The digits of a positive number `m * 2 ^ q`: the fewest that read back, and the nearest of
those. -/
def shortest (m : Nat) (q : Int) (narrowBelow : Bool) : Decimal :=
  let i := Interval.around m q narrowBelow
  let e := magnitude i.value i.denominator
  let n := leastFrom (fun n => (i.onGrid e n).isSome) 17 1
  let digits := Nat.toDigits 10 ((i.onGrid e n).getD 0)
  { digits := (digits.reverse.dropWhile (· = '0')).reverse
    exponent := e + ((digits.length : Int) - n) }

/-! ## 4. Text -/

/-- A decimal is written with a point when `10 ^ (least - 1) ≤ value < 10 ^ most`, and with an
exponent outside of that range. -/
structure Layout where
  least : Int
  most : Int

/-- Numbers from one ten-thousandth up to ten to the sixteenth are written with a point. -/
def layout : Layout := ⟨-3, 16⟩

/-- The digits with a point, at least one on each side of it. -/
def Decimal.positional (d : Decimal) : List Char :=
  if d.exponent ≤ 0 then
    ['0', '.'] ++ List.replicate (-d.exponent).toNat '0' ++ d.digits
  else
    let whole := d.digits.take d.exponent.toNat
    let part := d.digits.drop d.exponent.toNat
    whole ++ List.replicate (d.exponent.toNat - whole.length) '0' ++ ['.'] ++
      (if part.isEmpty then ['0'] else part)

/-- The first digit, the others behind a point, and the power of ten. -/
def Decimal.exponential (d : Decimal) : List Char :=
  let part := d.digits.drop 1
  d.digits.take 1 ++ (if part.isEmpty then [] else '.' :: part) ++ ['e'] ++
    (toString (d.exponent - 1)).toList

/-- The text of a decoded number. -/
def Decoded.text : Decoded → String
  | .nan => "NaN"
  | .infinite negative => if negative then "-inf" else "inf"
  | .finite negative m q narrowBelow =>
    let sign := if negative then "-" else ""
    if m = 0 then sign ++ "0.0"
    else
      let d := shortest m q narrowBelow
      let inside := layout.least ≤ d.exponent ∧ d.exponent ≤ layout.most
      sign ++ String.ofList (if inside then d.positional else d.exponential)

end Number

/-- The shortest text that reads back to the same bits. -/
def Single.text (x : Single) : String := (Number.singleFormat.decode x.bits.toNat).text

/-- The shortest text that reads back to the same bits. -/
def Double.text (x : Double) : String := (Number.doubleFormat.decode x.bits.toNat).text

end ClassFile
