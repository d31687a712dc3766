import VueToSan.Expr.Node
import VueToSan.Expr.Quoted
import VueToSan.Number.Decimal
import VueToSan.Number.Notation
import VueToSan.Text.Blank
import VueToSan.Text.Units

/-!
# Constants

The primitive values of the expression language and its operators on them. `+` joins texts when a
text takes part; texts are ordered by code unit and everything else by number; loose equality
converts its operands to numbers unless both are texts or one is missing.
-/

namespace VueToSan.Expr

open VueToSan.Text

inductive ValueType where
  | number | string | boolean | null | undefined | array | object
deriving DecidableEq, Repr

def ValueType.text : ValueType → String
  | number => "number" | string => "string" | boolean => "boolean" | null => "null"
  | undefined => "undefined" | array => "array" | object => "object"

inductive Constant where
  | number (value : Float)
  | string (text : String)
  | boolean (value : Bool)
  | null
  | undefined

def Literal.constant : Literal → Constant
  | .number value => .number value
  | .string text => .string text
  | .boolean value => .boolean value
  | .null => .null

def radix? : List Char → Option (Nat × List Char)
  | '0' :: 'x' :: cs | '0' :: 'X' :: cs => some (16, cs)
  | '0' :: 'o' :: cs | '0' :: 'O' :: cs => some (8, cs)
  | '0' :: 'b' :: cs | '0' :: 'B' :: cs => some (2, cs)
  | _ => none

def unsignedNumber (cs : List Char) : Float :=
  if cs = "Infinity".toList then Number.infinity
  else match Number.spanNumeral cs with
    | some (n, []) => n.value
    | _ => Number.nan

/-- The number that a text denotes: nothing but blanks is zero, a base prefix takes no sign and at
most 64 bits, and everything that is no numeral is not a number. -/
def textNumber (s : String) : Float :=
  let cs := trim s.toList
  let (sign, body) := match cs with
    | '-' :: rest => (some '-', rest)
    | '+' :: rest => (some '+', rest)
    | _ => (none, cs)
  if cs.isEmpty then 0
  else if body.head? = some '+' ∨ body.head? = some '-' then Number.nan
  else match radix? body with
    | some (radix, digits) =>
      match sign, readUnsigned? radix digits with
      | none, some n => if n < UInt64.size then Number.ofNat n else Number.nan
      | _, _ => Number.nan
    | none => if sign = some '-' then -(unsignedNumber body) else unsignedNumber body

def numberLayout : Number.Layout where
  tie := .up
  positional e := -7 < e && e < 21
  wholeEnd := []
  signedZero := false
  nan := "NaN".toList
  infinity := "Infinity".toList

def formatNumber (x : Float) : String :=
  numberLayout.write x

namespace Constant

def type : Constant → ValueType
  | number _ => .number
  | string _ => .string
  | boolean _ => .boolean
  | null => .null
  | undefined => .undefined

def isTruthy : Constant → Bool
  | number x => x != 0 && !x.isNaN
  | string s => !s.isEmpty
  | boolean b => b
  | null => false
  | undefined => false

def toNumber : Constant → Float
  | number x => x
  | string s => textNumber s
  | boolean b => if b then 1 else 0
  | null => 0
  | undefined => Number.nan

def toText : Constant → String
  | number x => formatNumber x
  | string s => s
  | boolean b => if b then "true" else "false"
  | null => "null"
  | undefined => "undefined"

def compare? : Constant → Constant → Option Ordering
  | string a, string b => some (compareUnits (units a) (units b))
  | a, b =>
    let x := a.toNumber
    let y := b.toNumber
    if x < y then some .lt
    else if y < x then some .gt
    else if x == y then some .eq
    else none

def strictEquals : Constant → Constant → Bool
  | number a, number b => a == b
  | string a, string b => a == b
  | boolean a, boolean b => a == b
  | null, null => true
  | undefined, undefined => true
  | _, _ => false

def isMissing : Constant → Bool
  | null | undefined => true
  | _ => false

def looseEquals (a b : Constant) : Bool :=
  if a.isMissing || b.isMissing then a.isMissing && b.isMissing
  else match a, b with
    | string s, string t => s == t
    | _, _ => a.toNumber == b.toNumber

def add : Constant → Constant → Constant
  | string a, b => string (a ++ b.toText)
  | a, string b => string (a.toText ++ b)
  | a, b => number (a.toNumber + b.toNumber)

def unary? (op : UnaryOp) (a : Constant) : Option Constant :=
  match op with
  | .plus => some (number a.toNumber)
  | .minus => some (number (-a.toNumber))
  | .not => some (boolean (!a.isTruthy))
  | _ => none

def binary? (op : BinaryOp) (a b : Constant) : Option Constant :=
  match op with
  | .add => some (a.add b)
  | .sub => some (number (a.toNumber - b.toNumber))
  | .mul => some (number (a.toNumber * b.toNumber))
  | .div => some (number (a.toNumber / b.toNumber))
  | .rem => some (number (Number.remainder a.toNumber b.toNumber))
  | .lt => some (boolean (compare? a b == some .lt))
  | .gt => some (boolean (compare? a b == some .gt))
  | .ltEq => some (boolean (compare? a b == some .lt || compare? a b == some .eq))
  | .gtEq => some (boolean (compare? a b == some .gt || compare? a b == some .eq))
  | .eq => some (boolean (looseEquals a b))
  | .notEq => some (boolean (!looseEquals a b))
  | .strictEq => some (boolean (strictEquals a b))
  | .strictNotEq => some (boolean (!strictEquals a b))
  | _ => none

def logical? (op : LogicalOp) (a b : Constant) : Option Constant :=
  match op with
  | .and => some (if a.isTruthy then b else a)
  | .or => some (if a.isTruthy then a else b)
  | .nullish => none

def emit : Constant → String
  | number x => formatNumber x
  | string s => quote s
  | c => c.toText

end Constant

end VueToSan.Expr
