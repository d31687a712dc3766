import VueToSan.Text.Ascii
import VueToSan.Number.Binary

/-!
# Reading decimals

A decimal numeral is read exactly and rounded once, to the nearest double.
-/

namespace VueToSan.Number

open VueToSan.Text

/-- The double nearest to `m · 10 ^ e`. Exponents far outside the range of doubles are not raised
to a power: such a numeral is zero or infinite. -/
def ofScaled (m : Nat) (e : Int) : Float :=
  let size := ((Nat.toDigits 10 m).length : Int) + e
  if m = 0 ∨ size < -330 then ofMagnitude false 0
  else if 310 < size then infinity
  else ofRatio false (m * Nat.pow 10 e.toNat) (Nat.pow 10 (-e).toNat)

structure Numeral where
  whole : List Char
  fraction : List Char
  negativeExponent : Bool
  exponent : List Char
deriving DecidableEq, Repr

def Numeral.value (n : Numeral) : Float :=
  let e : Int := ofDigits 10 n.exponent
  ofScaled (ofDigits 10 (n.whole ++ n.fraction))
    ((if n.negativeExponent then -e else e) - n.fraction.length)

def spanExponent (cs : List Char) : Option (Bool × List Char × List Char) :=
  match cs with
  | c :: rest =>
    if c = 'e' ∨ c = 'E' then
      let (negative, digits) := match rest with
        | '+' :: r => (false, r)
        | '-' :: r => (true, r)
        | r => (false, r)
      if (digits.takeWhile isDigit).isEmpty then none
      else some (negative, digits.takeWhile isDigit, digits.dropWhile isDigit)
    else none
  | [] => none

/-- The longest numeral at the start of a text, and the rest of the text. A numeral has a digit
before the point, or a point with a digit behind it. -/
def spanNumeral (cs : List Char) : Option (Numeral × List Char) :=
  let whole := cs.takeWhile isDigit
  let (fraction, rest) := match cs.dropWhile isDigit with
    | '.' :: r => (r.takeWhile isDigit, some (r.dropWhile isDigit))
    | _ => ([], none)
  if whole.isEmpty ∧ fraction.isEmpty then none
  else
    let rest := rest.getD (cs.dropWhile isDigit)
    match spanExponent rest with
    | some (negative, exponent, rest) => some (⟨whole, fraction, negative, exponent⟩, rest)
    | none => some (⟨whole, fraction, false, []⟩, rest)

end VueToSan.Number
