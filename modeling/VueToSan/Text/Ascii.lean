/-!
# Character classes of ASCII

The classes that the grammars of expressions and markup are written in. No character outside ASCII
belongs to any of them.
-/

namespace VueToSan.Text

def isDigit (c : Char) : Bool :=
  '0' ≤ c && c ≤ '9'

def isLower (c : Char) : Bool :=
  'a' ≤ c && c ≤ 'z'

def isUpper (c : Char) : Bool :=
  'A' ≤ c && c ≤ 'Z'

def isLetter (c : Char) : Bool :=
  isLower c || isUpper c

def isLetterOrDigit (c : Char) : Bool :=
  isLetter c || isDigit c

def digitValue (c : Char) : Nat :=
  if isDigit c then c.toNat - 48
  else if isLower c then c.toNat - 87
  else if isUpper c then c.toNat - 55
  else 36

def isDigitOf (base : Nat) (c : Char) : Bool :=
  digitValue c < base

def lowerChar (c : Char) : Char :=
  if isUpper c then Char.ofNat (c.toNat + 32) else c

def lower (s : String) : String :=
  String.ofList (s.toList.map lowerChar)

def sameLetters (s t : String) : Bool :=
  lower s == lower t

def ofDigits (base : Nat) (cs : List Char) : Nat :=
  cs.foldl (fun n c => n * base + digitValue c) 0

/-- Reads an unsigned number in a base: one `+` is allowed in front, at least one digit must
follow, and every character must be a digit of the base. -/
def readUnsigned? (base : Nat) (cs : List Char) : Option Nat :=
  let digits := match cs with
    | '+' :: rest => rest
    | _ => cs
  if digits.isEmpty || !digits.all (isDigitOf base) then none
  else some (ofDigits base digits)

end VueToSan.Text
