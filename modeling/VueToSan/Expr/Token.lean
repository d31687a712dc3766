import VueToSan.Number.Notation
import VueToSan.Source.Span

/-!
# Tokens of the expression language
-/

namespace VueToSan.Expr

inductive Keyword where
  | «true»
  | «false»
  | null
  | typeof
  | void
  | «in»
  | instanceof
deriving DecidableEq, Repr

namespace Keyword

def all : List Keyword := [.true, .false, .null, .typeof, .void, .in, .instanceof]

def text : Keyword → String
  | .true => "true"
  | .false => "false"
  | .null => "null"
  | .typeof => "typeof"
  | .void => "void"
  | .in => "in"
  | .instanceof => "instanceof"

def name : Keyword → String
  | .true => "True"
  | .false => "False"
  | .null => "Null"
  | .typeof => "Typeof"
  | .void => "Void"
  | .in => "In"
  | .instanceof => "Instanceof"

def ofText? (s : String) : Option Keyword := all.find? (·.text == s)

end Keyword

inductive Punct where
  | lparen | rparen | lbracket | rbracket | lbrace | rbrace
  | comma | dot | question | colon
  | plus | minus | star | starStar | slash | percent | bang | tilde
  | lt | gt | ltEq | gtEq | eqEq | notEq | eqEqEq | notEqEq
  | amp | ampAmp | pipe | pipePipe | questionQuestion | caret
  | shl | shr | ushr | assign
deriving DecidableEq, Repr

namespace Punct

def text : Punct → String
  | lparen => "(" | rparen => ")" | lbracket => "[" | rbracket => "]"
  | lbrace => "\x7b" | rbrace => "\x7d"
  | comma => "," | dot => "." | question => "?" | colon => ":"
  | plus => "+" | minus => "-" | star => "*" | starStar => "**" | slash => "/"
  | percent => "%" | bang => "!" | tilde => "~"
  | lt => "<" | gt => ">" | ltEq => "<=" | gtEq => ">="
  | eqEq => "==" | notEq => "!=" | eqEqEq => "===" | notEqEq => "!=="
  | amp => "&" | ampAmp => "&&" | pipe => "|" | pipePipe => "||"
  | questionQuestion => "??" | caret => "^"
  | shl => "<<" | shr => ">>" | ushr => ">>>" | assign => "="

def name : Punct → String
  | lparen => "LParen" | rparen => "RParen" | lbracket => "LBracket" | rbracket => "RBracket"
  | lbrace => "LBrace" | rbrace => "RBrace"
  | comma => "Comma" | dot => "Dot" | question => "Question" | colon => "Colon"
  | plus => "Plus" | minus => "Minus" | star => "Star" | starStar => "StarStar"
  | slash => "Slash" | percent => "Percent" | bang => "Bang" | tilde => "Tilde"
  | lt => "Lt" | gt => "Gt" | ltEq => "LtEq" | gtEq => "GtEq"
  | eqEq => "EqEq" | notEq => "NotEq" | eqEqEq => "EqEqEq" | notEqEq => "NotEqEq"
  | amp => "Amp" | ampAmp => "AmpAmp" | pipe => "Pipe" | pipePipe => "PipePipe"
  | questionQuestion => "QuestionQuestion" | caret => "Caret"
  | shl => "Shl" | shr => "Shr" | ushr => "UShr" | assign => "Assign"

/-- All of them, longer ones before shorter ones. -/
def all : List Punct :=
  [eqEqEq, notEqEq, ushr,
   starStar, ltEq, gtEq, eqEq, notEq, ampAmp, pipePipe, questionQuestion, shl, shr,
   lparen, rparen, lbracket, rbracket, lbrace, rbrace, comma, dot, question, colon,
   plus, minus, star, slash, percent, bang, tilde, lt, gt, amp, pipe, caret, assign]

end Punct

inductive Token where
  | keyword (word : Keyword)
  | ident (name : String)
  | number (value : Float)
  /-- A string literal, its escapes resolved. -/
  | string (text : String)
  /-- A template string, as written between the backquotes. -/
  | template (body : String)
  | punct (mark : Punct)

namespace Token

def numberLayout : Number.Layout where
  tie := .up
  positional _ := true
  wholeEnd := []
  signedZero := true
  nan := "NaN".toList
  infinity := "inf".toList

def keywordText? : Token → Option String
  | keyword word => some word.text
  | _ => none

def describe : Token → String
  | keyword word => "\"" ++ word.text ++ "\""
  | ident name => "identifier \"" ++ name ++ "\""
  | number value => "number " ++ numberLayout.write value
  | string _ => "string"
  | template _ => "template string"
  | punct mark => mark.name

end Token

structure Lexeme where
  token : Token
  span : Span

end VueToSan.Expr
