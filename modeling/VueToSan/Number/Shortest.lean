import VueToSan.Number.Binary

/-!
# Shortest decimals

The fewest significant digits that still read back as the same double, and of those decimals the
one nearest to the double. All comparisons are between natural numbers.
-/

namespace VueToSan.Number

inductive Tie where
  | up
  | even
deriving DecidableEq, Repr

structure Decimal where
  digits : List Char
  exponent : Int
deriving DecidableEq, Repr

/-- The numbers that round to a double, in quarters of its last place: `value` is the double, the
ends belong to the interval exactly when `closed`. -/
structure Interval where
  low : Nat
  value : Nat
  high : Nat
  exponent : Int
  closed : Bool
deriving DecidableEq, Repr

def Interval.ofParts (significand : Nat) (exponent : Int) : Interval where
  low := 4 * significand - if significand = Nat.pow 2 52 ∧ -1074 < exponent then 1 else 2
  value := 4 * significand
  high := 4 * significand + 2
  exponent := exponent - 2
  closed := significand % 2 == 0

/-- `c · 10 ^ k` and `x · 2 ^ p` brought to one denominator: the first of the two. -/
def decimalSide (c : Nat) (k p : Int) : Nat := c * Nat.pow 10 k.toNat * Nat.pow 2 (-p).toNat

def binarySide (x : Nat) (k p : Int) : Nat := x * Nat.pow 2 p.toNat * Nat.pow 10 (-k).toNat

def Interval.holds (i : Interval) (c : Nat) (k : Int) : Bool :=
  let d := decimalSide c k i.exponent
  let low := binarySide i.low k i.exponent
  let high := binarySide i.high k i.exponent
  if i.closed then low ≤ d && d ≤ high else low < d && d < high

/-- The multiple of `10 ^ k` that rounds to the double and is nearest to it, if there is one. -/
def Interval.onGrid? (i : Interval) (tie : Tie) (k : Int) : Option Nat :=
  let v := binarySide i.value k i.exponent
  let unit := decimalSide 1 k i.exponent
  let c := v / unit
  match i.holds c k, i.holds (c + 1) k with
  | true, false => some c
  | false, true => some (c + 1)
  | true, true =>
    let below := v - c * unit
    let above := (c + 1) * unit - v
    if below < above then some c
    else if above < below then some (c + 1)
    else match tie with
      | .up => some (c + 1)
      | .even => some (c + c % 2)
  | false, false => none

def Interval.magnitude (i : Interval) : Int :=
  let n := binarySide i.value (-400) i.exponent / decimalSide 1 (-400) i.exponent
  ((Nat.toDigits 10 n).length : Int) - 401

def dropTrailingZeros (cs : List Char) : List Char :=
  (cs.reverse.dropWhile (· == '0')).reverse

def Interval.search (i : Interval) (tie : Tie) : Nat → Int → Decimal
  | 0, k => ⟨['0'], k⟩
  | n + 1, k =>
    match i.onGrid? tie k with
    | some c =>
      let ds := Nat.toDigits 10 c
      ⟨dropTrailingZeros ds, k + ds.length - 1⟩
    | none => i.search tie n (k - 1)

/-- The shortest decimal of a positive double; seventeen digits always suffice. -/
def shortest (tie : Tie) (significand : Nat) (exponent : Int) : Decimal :=
  let i := Interval.ofParts significand exponent
  i.search tie 18 i.magnitude

end VueToSan.Number
