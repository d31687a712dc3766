import VueToSan.Text.Bytes

/-!
# Pieces of a template string

The body of a template string is cut into texts and the codes of its interpolations. Texts and
codes alternate, and the first and the last piece are texts, which may be empty.
-/

namespace VueToSan.Expr

open VueToSan.Text

inductive Piece where
  | text (offset : Nat) (chars : List Char)
  | code (offset : Nat) (chars : List Char)
deriving DecidableEq, Repr

mutual

def splitText (offset : Nat) (seen : List Char) : List Char → List Piece
  | '\\' :: c :: cs => splitText offset (c :: '\\' :: seen) cs
  | '$' :: '{' :: cs =>
    .text offset seen.reverse :: splitCode (offset + byteLength seen + 2) [] 1 none cs
  | c :: cs => splitText offset (c :: seen) cs
  | [] => [.text offset seen.reverse]

/-- Cuts a body from inside a code that started at `offset`, with `depth` braces open. Braces in
quoted strings do not count. -/
def splitCode (offset : Nat) (seen : List Char) (depth : Nat) (quote : Option Char) :
    List Char → List Piece
  | '\\' :: c :: cs => splitCode offset (c :: '\\' :: seen) depth quote cs
  | c :: cs =>
    match quote with
    | some q => splitCode offset (c :: seen) depth (if c = q then none else some q) cs
    | none =>
      if c = '{' then splitCode offset (c :: seen) (depth + 1) none cs
      else if c = '}' then
        if depth ≤ 1 then
          .code offset seen.reverse :: splitText (offset + byteLength seen + 1) [] cs
        else splitCode offset (c :: seen) (depth - 1) none cs
      else if c = '\x27' ∨ c = '\x22' then splitCode offset (c :: seen) depth (some c) cs
      else splitCode offset (c :: seen) depth none cs
  | [] => [.code offset seen.reverse, .text (offset + byteLength seen) []]

end

def pieces (body : List Char) : List Piece :=
  splitText 0 [] body

end VueToSan.Expr
