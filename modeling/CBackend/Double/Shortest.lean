import CBackend.Double

/-!
The text of a double: the fewest decimal digits that read back as the same number, of those the
nearest to it. The search is exact: a finite double is `m * 2 ^ q`, the decimals that round to it
form an interval around it, and for a growing number of digits the two neighbours of the number
on that decimal grid are tried.
-/

namespace CBackend.Double

/-- A decimal number `digits * 10 ^ exponent`. -/
structure Decimal where
  digits : Nat
  exponent : Int
  deriving DecidableEq, Repr

/-- A positive number `num / den` with the ends of the interval that rounds to it, all over the
same denominator. -/
structure Interval where
  num : Nat
  low : Nat
  high : Nat
  den : Nat
  closed : Bool

namespace Interval

/-- The interval of `m * 2 ^ (q - 1074)`. The gap below the least significand of an exponent is
half the gap above it; the ends belong to the interval when the significand is even. -/
def ofParts (m q : Nat) : Interval :=
  let lowGap := if m = leadingBit ∧ 0 < q then 1 else 2
  let scale := 1 <<< q
  ⟨4 * m * scale, (4 * m - lowGap) * scale, (4 * m + 2) * scale, 1 <<< 1076, m % 2 = 0⟩

def contains (i : Interval) (stepNum stepDen n : Nat) : Bool :=
  let point := n * stepNum * i.den
  let low := i.low * stepDen
  let high := i.high * stepDen
  if i.closed then decide (low ≤ point ∧ point ≤ high) else decide (low < point ∧ point < high)

/-- The multiple of `10 ^ e` that lies in the interval and is nearest to the number. -/
def onGrid? (i : Interval) (e : Int) : Option Nat :=
  let stepNum := Nat.pow 10 e.toNat
  let stepDen := Nat.pow 10 (-e).toNat
  let top := i.num * stepDen
  let unit := stepNum * i.den
  let below := top / unit
  let rest := top % unit
  let belowIn := 0 < below && i.contains stepNum stepDen below
  let aboveIn := i.contains stepNum stepDen (below + 1)
  if belowIn && (!aboveIn || 2 * rest < unit) then some below
  else if aboveIn then some (below + 1)
  else none

/-- The number of digits before the point, or minus the zeros after it: the `p` with
`10 ^ (p - 1) ≤ num / den < 10 ^ p`. -/
def magnitude (i : Interval) : Int :=
  if i.den ≤ i.num then (Nat.toDigits 10 (i.num / i.den)).length
  else 1 - (Nat.toDigits 10 ((i.den - 1) / i.num)).length

def search (i : Interval) (p : Int) : (count : Nat) → (tries : Nat) → Option Decimal
  | _, 0 => none
  | count, tries + 1 =>
    let e := p - count
    match i.onGrid? e with
    | some n => some ⟨n, e⟩
    | none => i.search p (count + 1) tries

end Interval

/-- Seventeen digits always suffice. -/
def mostDigits : Nat := 17

def shortest (d : Double) : Decimal :=
  let (m, q) := d.parts
  let i := Interval.ofParts m q
  (i.search i.magnitude 1 mostDigits).getD ⟨0, 0⟩

structure TextForm where
  leastPositional : Int
  mostPositional : Int
  exponentMark : String
  infinity : String
  notANumber : String

/-- Positional from `1e-4` up to `1e16`, with at least one digit after the point. -/
def constantName : TextForm := ⟨-4, 16, "e", "inf", "NaN"⟩

def trimZeros (digits : List Char) : List Char := (digits.reverse.dropWhile (· == '0')).reverse

def positional (digits : List Char) (point : Int) : String :=
  if point ≤ 0 then
    "0." ++ String.ofList (List.replicate (-point).toNat '0' ++ digits)
  else
    let k := point.toNat
    let whole := digits.take k ++ List.replicate (k - digits.length) '0'
    let fraction := digits.drop k
    String.ofList whole ++ "." ++ (if fraction.isEmpty then "0" else String.ofList fraction)

def exponential (mark : String) (digits : List Char) (point : Int) : String :=
  let fraction := digits.drop 1
  String.ofList (digits.take 1)
    ++ (if fraction.isEmpty then "" else "." ++ String.ofList fraction)
    ++ mark ++ toString (point - 1)

def render (n : TextForm) (d : Double) : String :=
  let sign := if d.isNegative then "-" else ""
  if d.isNaN then n.notANumber
  else if d.isInfinite then sign ++ n.infinity
  else if d.isZero then sign ++ "0.0"
  else
    let dec := d.shortest
    let all := Nat.toDigits 10 dec.digits
    let point : Int := all.length + dec.exponent
    let digits := trimZeros all
    -- `10 ^ (point - 1)` is at most the number, which is below `10 ^ point`.
    if n.leastPositional < point ∧ point ≤ n.mostPositional then
      sign ++ positional digits point
    else sign ++ exponential n.exponentMark digits point

end CBackend.Double
