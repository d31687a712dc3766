import VueToSan.Number.Shortest

/-!
# Number texts

A number text is the shortest decimal of a double, laid out by the decisions of one format.
-/

namespace VueToSan.Number

structure Layout where
  /-- Which neighbour an exact tie goes to. -/
  tie : Tie
  /-- The exponents of the first digit that are written without an exponent. -/
  positional : Int → Bool
  /-- What is put behind a whole number. -/
  wholeEnd : List Char
  /-- Whether the sign of a zero is written. -/
  signedZero : Bool
  nan : List Char
  infinity : List Char

def zeros (n : Nat) : List Char := List.replicate n '0'

def Layout.plain (f : Layout) (d : Decimal) : List Char :=
  let point := d.exponent + 1
  if d.digits.length ≤ point then
    d.digits ++ zeros (point - d.digits.length).toNat ++ f.wholeEnd
  else if 0 < point then
    d.digits.take point.toNat ++ '.' :: d.digits.drop point.toNat
  else '0' :: '.' :: (zeros (-point).toNat ++ d.digits)

def scientific (d : Decimal) : List Char :=
  let exponent := (if d.exponent < 0 then '-' else '+') :: Nat.toDigits 10 d.exponent.natAbs
  match d.digits with
  | first :: rest@(_ :: _) => first :: '.' :: (rest ++ 'e' :: exponent)
  | digits => digits ++ 'e' :: exponent

def Layout.decimal (f : Layout) (d : Decimal) : List Char :=
  if f.positional d.exponent then f.plain d else scientific d

def signed (negative : Bool) (cs : List Char) : List Char :=
  if negative then '-' :: cs else cs

def Layout.write (f : Layout) (x : Float) : String :=
  String.ofList <| match decode x with
    | .nan => f.nan
    | .infinite negative => signed negative f.infinity
    | .finite negative m e =>
      if m = 0 then signed (negative && f.signedZero) ('0' :: f.wholeEnd)
      else signed negative (f.decimal (shortest f.tie m e))

end VueToSan.Number
