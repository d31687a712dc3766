import VueToSan.Expr.Parser
import VueToSan.San.Error
import VueToSan.San.Tree
import VueToSan.Text.Blank

/-!
# Texts and expressions in San markup
-/

namespace VueToSan.San

open VueToSan.Text

def readExpr (code : List Char) (span : Span) : Except Error Expr.Piped :=
  let code := String.ofList (trim code)
  (Expr.parse code).mapError fun e => ⟨.expression e.fault code, span⟩

def readExprValue (code : List Char) (span : Span) : Except Error Value := do
  let expr ← readExpr code span
  return ⟨.expr expr, some (String.ofList code)⟩

def spanInterpolation : (depth : Nat) → (quote : Option Char) → List Char →
    Option (List Char × List Char)
  | depth, some q, '\\' :: c :: cs =>
    (spanInterpolation depth (some q) cs).map fun (code, rest) => ('\\' :: c :: code, rest)
  | depth, some q, c :: cs =>
    (spanInterpolation depth (if c = q then none else some q) cs).map
      fun (code, rest) => (c :: code, rest)
  | 0, none, '}' :: '}' :: cs => some ([], cs)
  | depth, none, c :: cs =>
    let inner :=
      if c = '\x27' ∨ c = '\x22' ∨ c = '\x60' then spanInterpolation depth (some c) cs
      else if c = '{' then spanInterpolation (depth + 1) none cs
      else if c = '}' then spanInterpolation (depth - 1) none cs
      else spanInterpolation depth none cs
    inner.map fun (code, rest) => (c :: code, rest)
  | _, _, [] => none

def literalSegment (cs : List Char) : List Segment :=
  if cs.isEmpty then [] else [.literal (String.ofList cs)]

/-- The segments of a text; `seen` holds the current literal, the last character first, and `skip`
counts the characters that belong to an interpolation met before. An interpolation that is not
closed is literal text, and so is everything behind it. -/
def segmentsFrom (span : Span) : (skip : Nat) → (seen : List Char) → List Char →
    Except Error (List Segment)
  | _, seen, [] => .ok (literalSegment seen.reverse)
  | skip + 1, seen, _ :: cs => segmentsFrom span skip seen cs
  | 0, seen, '{' :: '{' :: cs =>
    match spanInterpolation 0 none cs with
    | none => .ok (literalSegment (seen.reverse ++ '{' :: '{' :: cs))
    | some (code, _) => do
      let expr ← readExpr code span
      let rest ← segmentsFrom span (code.length + 2) [] cs
      return literalSegment seen.reverse ++ .interpolation expr :: rest
  | 0, seen, c :: cs => segmentsFrom span 0 (c :: seen) cs

def readText (text : List Char) (span : Span) : Except Error Value := do
  let segments ← segmentsFrom span 0 [] text
  let kind : ValueKind := match segments with
    | [.interpolation expr] => .expr expr
    | _ => .text segments
  return ⟨kind, some (String.ofList text)⟩

end VueToSan.San
