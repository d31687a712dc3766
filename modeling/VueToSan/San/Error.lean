import VueToSan.Expr.Error

/-!
# Errors of San markup
-/

namespace VueToSan.San

inductive Fault where
  /-- An expression that cannot be read. -/
  | expression (fault : Expr.Fault) (code : String)
  /-- A loop that is not of the form `item[, index] in list`. -/
  | loop (text : String)
  | elseWithoutIf
  /-- An element without its end tag; another end tag may stand in its place. -/
  | unclosed (tag : String) (found : Option String)

def Fault.code : Fault → String
  | .expression .. => "invalid-expression"
  | .loop _ => "invalid-for"
  | .elseWithoutIf => "else-without-if"
  | .unclosed .. => "unclosed-element"

def Fault.text : Fault → String
  | .expression fault code => fault.message ++ " in expression \"" ++ code ++ "\""
  | .loop text => "for syntax error: " ++ text
  | .elseWithoutIf => "else not match if."
  | .unclosed tag none => "tag <" ++ tag ++ "> has no matching end tag."
  | .unclosed tag (some found) =>
    "tag <" ++ tag ++ "> has no matching end tag, found </" ++ found ++ ">."

structure Error where
  fault : Fault
  span : Span

def Error.message (e : Error) : String :=
  e.fault.text ++ " (" ++ Nat.repr e.span.start ++ ":" ++ Nat.repr e.span.stop ++ ")"

end VueToSan.San
