import SchemaSpans.Number.Double

/-!
The shortest decimal that reads back as a given double, and its notation. For
each number of digits the two neighbours of the double on that decimal grid are
tried in exact arithmetic; the first grid with a neighbour that reads back wins.
-/

namespace SchemaSpans.Double

/-- The number of decimal digits of a positive number. -/
def digitCount (n : Nat) : Nat :=
  (Nat.toDigits 10 n).length

/--
A positive double and the numbers that read back as it, over one denominator: the
double itself, and the two ends of the interval around it.
-/
structure Interval where
  low : Nat
  value : Nat
  high : Nat
  denominator : Nat
  /-- The ends read back too when the significand is even. -/
  closed : Bool

/-- The interval of a positive double. -/
def interval (x : Double) : Interval :=
  let unit := Nat.pow 2 x.power.toNat
  let m := x.significand
  { low := (4 * m - (if x.isNarrowBelow then 1 else 2)) * unit
    value := 4 * m * unit
    high := (4 * m + 2) * unit
    denominator := 4 * Nat.pow 2 (-x.power).toNat
    closed := m % 2 = 0 }

namespace Interval

/--
The exponent of the leading digit: the value is at least ten to this power, and less
than ten times that.
-/
def leadingExponent (i : Interval) : Int :=
  if i.denominator ≤ i.value then digitCount (i.value / i.denominator) - 1
  else -digitCount ((i.denominator + i.value - 1) / i.value - 1)

/-- The interval in units of `10 ^ exponent`. -/
def inUnits (i : Interval) (exponent : Int) : Interval :=
  let up := Nat.pow 10 (-exponent).toNat
  { i with
    low := i.low * up
    value := i.value * up
    high := i.high * up
    denominator := i.denominator * Nat.pow 10 exponent.toNat }

/-- Whether the whole number `n` reads back. -/
def holds (i : Interval) (n : Nat) : Bool :=
  let scaled := n * i.denominator
  if i.closed then i.low ≤ scaled && scaled ≤ i.high else i.low < scaled && scaled < i.high

/-- The nearest whole number, the even one of two. -/
def nearest (i : Interval) : Nat :=
  let below := i.value / i.denominator
  let excess := 2 * (i.value % i.denominator)
  if excess < i.denominator then below
  else if i.denominator < excess then below + 1
  else if below % 2 = 0 then below else below + 1

/-- A whole number next to the value that reads back, the nearer one if both do. -/
def neighbour? (i : Interval) : Option Nat :=
  let below := i.value / i.denominator
  match i.holds below, i.holds (below + 1) with
  | true, true => some i.nearest
  | true, false => some below
  | false, true => some (below + 1)
  | false, false => none

end Interval

/-- Digits `d₁d₂…` that stand for `d₁.d₂… * 10 ^ exponent`. -/
structure Decimal where
  digits : List Char
  exponent : Int

/-- The shortest decimal for a positive double. -/
def shortest (x : Double) : Decimal :=
  let i := x.interval
  let leading := i.leadingExponent
  let found := (List.range 17).findSome? fun (k : Nat) => do
    let unit := leading - k
    let n ← (i.inUnits unit).neighbour?
    some (n, unit)
  -- seventeen digits are always enough
  let (n, unit) := found.getD ((i.inUnits (leading - 16)).nearest, leading - 16)
  let digits := Nat.toDigits 10 n
  { digits := (digits.reverse.dropWhile (· = '0')).reverse
    exponent := unit + (digits.length - 1 : Nat) }

/-- The digits with zeros appended up to `n` of them. -/
def padded (digits : List Char) (n : Nat) : List Char :=
  digits ++ List.replicate (n - digits.length) '0'

/-- The digits after the point, at least one of them. -/
def afterPoint (digits : List Char) : List Char :=
  if digits.isEmpty then ['0'] else digits

/--
A decimal as it is written: in plain notation from five places behind the point
to sixteen before it, otherwise with a signed exponent.
-/
def Decimal.written (d : Decimal) : List Char :=
  if 0 ≤ d.exponent ∧ d.exponent ≤ 15 then
    let places := d.exponent.toNat + 1
    (padded d.digits places).take places ++ '.' :: afterPoint (d.digits.drop places)
  else if -5 ≤ d.exponent ∧ d.exponent < 0 then
    '0' :: '.' :: List.replicate (-d.exponent - 1).toNat '0' ++ d.digits
  else
    d.digits.take 1 ++ (if d.digits.length ≤ 1 then [] else '.' :: d.digits.drop 1) ++
      'e' :: (if 0 ≤ d.exponent then '+' else '-') :: Nat.toDigits 10 d.exponent.natAbs

/-- The text of a double: its sign and the shortest decimal that reads back as it. -/
def written (x : Double) : List Char :=
  (if x.isNegative then ['-'] else []) ++
    (if x.significand = 0 then ['0', '.', '0'] else x.shortest.written)

end SchemaSpans.Double
