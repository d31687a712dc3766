import VueToSan.Number.Notation
import VueToSan.Text.Search

/-!
# JSON

JSON values with ordered members, and their text without blanks.
-/

namespace VueToSan.Json

open VueToSan.Number VueToSan.Text

mutual

inductive Value where
  | null
  | bool (value : Bool)
  /-- A number that is written without a point. -/
  | count (value : Nat)
  | number (value : Float)
  | string (text : String)
  | array (items : List Value)
  | object (members : List Member)

structure Member where
  name : String
  value : Value

end

instance : Inhabited Value := ⟨.null⟩

namespace Value

def strings (texts : List String) : Value := array (texts.map string)

def orNull : Option Value → Value
  | none => null
  | some value => value

def optional (text : Option String) : Value := orNull (text.map string)

def string? : Value → Option String
  | string s => some s
  | _ => none

def bool? : Value → Option Bool
  | bool b => some b
  | _ => none

def tagged (tag : String) (value : Value) : Value := object [⟨tag, value⟩]

end Value

namespace Member

def find? (members : List Member) (name : String) : Option Value :=
  (members.find? (·.name == name)).map (·.value)

def present (name : String) (value : Option Value) : List Member :=
  (value.map fun value => ⟨name, value⟩).toList

def nonEmpty (name : String) (items : List Value) : List Member :=
  if items.isEmpty then [] else [⟨name, .array items⟩]

end Member

def numberLayout : Layout where
  tie := .even
  positional exponent := -5 ≤ exponent ∧ exponent ≤ 15
  wholeEnd := ['.', '0']
  signedZero := true
  nan := "null".toList
  infinity := "null".toList

def writeNumber (x : Float) : String :=
  match decode x with
  | .infinite _ => "null"
  | _ => numberLayout.write x

def hexPair (n : Nat) : List Char := [Nat.digitChar (n / 16), Nat.digitChar (n % 16)]

def escape (c : Char) : List Char :=
  match c with
  | '\x22' => ['\\', '\x22']
  | '\\' => ['\\', '\\']
  | '\x08' => ['\\', 'b']
  | '\x0c' => ['\\', 'f']
  | '\n' => ['\\', 'n']
  | '\r' => ['\\', 'r']
  | '\t' => ['\\', 't']
  | c => if c.toNat < 32 then '\\' :: 'u' :: '0' :: '0' :: hexPair c.toNat else [c]

def writeString (s : String) : String :=
  "\"" ++ String.ofList (s.toList.flatMap escape) ++ "\""

mutual

def Value.write : Value → String
  | .null => "null"
  | .bool b => if b then "true" else "false"
  | .count n => toString n
  | .number x => writeNumber x
  | .string s => writeString s
  | .array items => "[" ++ joinWith "," (writeItems items) ++ "]"
  | .object members => "\x7b" ++ joinWith "," (writeMembers members) ++ "\x7d"

def writeItems : List Value → List String
  | [] => []
  | item :: rest => item.write :: writeItems rest

def writeMembers : List Member → List String
  | [] => []
  | ⟨name, value⟩ :: rest => (writeString name ++ ":" ++ value.write) :: writeMembers rest

end

end VueToSan.Json
