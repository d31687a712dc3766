import VueToSan.Text.Ascii

/-!
# Quoted strings

String literals of the expression language: `quote` writes one between single quotes, `unescape`
resolves the escapes between the quotes of one.
-/

namespace VueToSan.Expr

open VueToSan.Text

def quoteChar (c : Char) : List Char :=
  if c = '\\' then ['\\', '\\']
  else if c = '\x27' then ['\\', '\x27']
  else if c = '\n' then ['\\', 'n']
  else if c = '\r' then ['\\', 'r']
  else [c]

def quoteChars (cs : List Char) : List Char :=
  '\x27' :: (cs.flatMap quoteChar ++ ['\x27'])

def quote (s : String) : String :=
  String.ofList (quoteChars s.toList)

def charOfCode? (n : Nat) : Option Char :=
  if n < 0xD800 ∨ (0xDFFF < n ∧ n < 0x110000) then some (Char.ofNat n) else none

/-- What hexadecimal digits after `\x` or `\u` stand for: a character, or themselves when they name
none. Numbers of 32 bits or more name none. -/
def hexEscape (hex : List Char) : List Char :=
  match (readUnsigned? 16 hex).bind charOfCode? with
  | some c => [c]
  | none => hex

def escape : List Char → List Char × Nat
  | [] => (['\\'], 0)
  | 'n' :: _ => (['\n'], 1)
  | 't' :: _ => (['\t'], 1)
  | 'r' :: _ => (['\r'], 1)
  | 'b' :: _ => (['\x08'], 1)
  | 'f' :: _ => (['\x0c'], 1)
  | 'v' :: _ => (['\x0b'], 1)
  | '0' :: _ => (['\x00'], 1)
  | 'x' :: cs => (hexEscape (cs.take 2), 1 + (cs.take 2).length)
  | 'u' :: '{' :: cs =>
    let hex := cs.takeWhile (· ≠ '}')
    (hexEscape hex, 2 + hex.length + 1)
  | 'u' :: cs => (hexEscape (cs.take 4), 1 + (cs.take 4).length)
  | '\n' :: _ => ([], 1)
  | c :: _ => ([c], 1)

def unescapeFrom : Nat → List Char → List Char
  | _, [] => []
  | skip + 1, _ :: cs => unescapeFrom skip cs
  | 0, c :: cs =>
    if c = '\\' then (escape cs).1 ++ unescapeFrom (escape cs).2 cs
    else c :: unescapeFrom 0 cs

def unescapeChars (cs : List Char) : List Char :=
  unescapeFrom 0 cs

def unescape (s : String) : String :=
  String.ofList (unescapeChars s.toList)

end VueToSan.Expr
