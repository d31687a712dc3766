/-!
# Doubles as integers times powers of two

A finite double is `± significand · 2 ^ exponent`. `decode` reads the three parts off the bits, and
`ofRatio` goes the other way: it gives the double nearest to a quotient of natural numbers, a tie
going to the even significand.
-/

namespace VueToSan.Number

inductive Decoded where
  | nan
  | infinite (negative : Bool)
  | finite (negative : Bool) (significand : Nat) (exponent : Int)
deriving DecidableEq, Repr

def decode (x : Float) : Decoded :=
  let bits : Nat := x.toBits.toNat
  let negative := bits / Nat.pow 2 63 == 1
  let biased : Nat := bits / Nat.pow 2 52 % Nat.pow 2 11
  let fraction : Nat := bits % Nat.pow 2 52
  if biased = 2047 then
    if fraction = 0 then .infinite negative else .nan
  else if biased = 0 then .finite negative fraction (-1074)
  else .finite negative (Nat.pow 2 52 + fraction) ((biased : Int) - 1075)

def infinityBits : Nat := 2047 * Nat.pow 2 52

def roundHalfEven (num den : Nat) : Nat :=
  let q := num / den
  let r := num % den
  if 2 * r < den then q
  else if den < 2 * r then q + 1
  else q + q % 2

/-- The exponent at which the significand of `num / den` has 53 bits, or the least exponent. -/
def exponentFor (num den : Nat) : Int :=
  let e : Int := (num.log2 : Int) - den.log2 - 52
  let e := if num * Nat.pow 2 (-e).toNat < den * Nat.pow 2 52 * Nat.pow 2 e.toNat then e - 1 else e
  max e (-1074)

def nearestBits (num den : Nat) : Nat :=
  if num = 0 then 0
  else
    let e := exponentFor num den
    let m := roundHalfEven (num * Nat.pow 2 (-e).toNat) (den * Nat.pow 2 e.toNat)
    min ((e + 1074).toNat * Nat.pow 2 52 + m) infinityBits

def ofMagnitude (negative : Bool) (bits : Nat) : Float :=
  Float.ofBits (UInt64.ofNat (bits + if negative then Nat.pow 2 63 else 0))

/-- The double nearest to `± num / den`; `den` is not zero. -/
def ofRatio (negative : Bool) (num den : Nat) : Float :=
  ofMagnitude negative (nearestBits num den)

def ofNat (n : Nat) : Float :=
  ofRatio false n 1

def nan : Float := Float.ofBits (UInt64.ofNat (infinityBits + Nat.pow 2 51))

def infinity : Float := ofMagnitude false infinityBits

def remainder (x y : Float) : Float :=
  match decode x, decode y with
  | .finite negative m p, .finite _ n q =>
    if n = 0 then nan
    else
      let e := min p q
      let r := m * Nat.pow 2 (p - e).toNat % (n * Nat.pow 2 (q - e).toNat)
      ofRatio negative (r * Nat.pow 2 e.toNat) (Nat.pow 2 (-e).toNat)
  | .finite .., .infinite _ => x
  | _, _ => nan

end VueToSan.Number
