import VueToSan.Expr.Token

/-!
# Errors of the expression language
-/

namespace VueToSan.Expr

inductive Expected where
  | expression
  | filterName
  | propertyName
  | propertyKey
  | mark (p : Punct)
deriving DecidableEq, Repr

def Expected.text : Expected → String
  | .expression => "expression"
  | .filterName => "filter name"
  | .propertyName => "property name"
  | .propertyKey => "property key"
  | .mark p => "\"" ++ p.text ++ "\""

inductive Fault where
  /-- A token stands where something else is asked for; `none` is the end of the input. -/
  | expected (what : Expected) (found : Option Token)
  /-- A token is left over behind a whole expression. -/
  | leftover (found : Token)
  /-- A text that forms no token. -/
  | badText (text : String)
  /-- A template string without its closing backquote. -/
  | openTemplate

def Fault.code : Fault → String
  | .expected _ (some _) => "unexpected-token"
  | .expected _ none => "unexpected-eof"
  | .leftover _ => "unexpected-token"
  | .badText _ => "invalid-token"
  | .openTemplate => "unterminated"

def Fault.message : Fault → String
  | .expected what (some found) => "Expected " ++ what.text ++ ", found " ++ found.describe
  | .expected what none => "Expected " ++ what.text ++ ", found end of input"
  | .leftover found => "Unexpected " ++ found.describe
  | .badText text => "Invalid or unexpected token \"" ++ text ++ "\""
  | .openTemplate => "Unterminated template string"

structure Error where
  fault : Fault
  span : Span

def Error.message (e : Error) : String :=
  e.fault.message ++ " (" ++ Nat.repr e.span.start ++ ":" ++ Nat.repr e.span.stop ++ ")"

end VueToSan.Expr
