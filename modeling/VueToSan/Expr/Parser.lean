import VueToSan.Expr.Lexer
import VueToSan.Expr.Node
import VueToSan.Expr.Pieces

/-!
# Parsing expressions

Operators are read by binding powers. A bar outside all brackets sends the expression through a
filter; inside brackets and interpolations it is the bitwise operator.

Every function takes a bound on the depth of its recursion, so that it is defined by recursion on
that bound. `fuelFor` gives a bound that is large enough for a source.
-/

namespace VueToSan.Expr

open VueToSan.Text

inductive Stop where
  | outOfFuel
  | failed (error : Error)

abbrev Followed (α : Type) := α × List Lexeme

/-- Where a token list stands: the lines of its source, the offset at which it ends, and whether it
stands inside brackets. -/
structure Setting where
  lines : LineIndex
  stop : Nat
  nested : Bool

namespace Setting

def inner (s : Setting) : Setting := { s with nested := true }

def location (s : Setting) (span : Span) : Location := s.lines.location span

def unexpected (s : Setting) (what : Expected) (ts : List Lexeme) : Stop :=
  match ts with
  | t :: _ => .failed ⟨.expected what (some t.token), t.span⟩
  | [] => .failed ⟨.expected what none, .empty s.stop⟩

def mark (s : Setting) (p : Punct) (ts : List Lexeme) : Except Stop (Followed Span) :=
  match ts with
  | ⟨.punct q, span⟩ :: rest =>
    if p = q then .ok (span, rest) else .error (s.unexpected (.mark p) ts)
  | _ => .error (s.unexpected (.mark p) ts)

end Setting

def startsWith (p : Punct) : List Lexeme → Bool
  | ⟨.punct q, _⟩ :: _ => p == q
  | _ => false

def finished : List Lexeme → Except Stop Unit
  | [] => .ok ()
  | t :: _ => .error (.failed ⟨.leftover t.token, t.span⟩)

inductive Infix where
  | binary (op : BinaryOp)
  | logical (op : LogicalOp)
deriving DecidableEq, Repr

structure Binding where
  operator : Infix
  left : Nat
  right : Nat
deriving DecidableEq, Repr

def Token.binding? (nested : Bool) : Token → Option Binding
  | .punct .pipePipe => some ⟨.logical .or, 1, 2⟩
  | .punct .questionQuestion => some ⟨.logical .nullish, 1, 2⟩
  | .punct .ampAmp => some ⟨.logical .and, 3, 4⟩
  | .punct .pipe => if nested then some ⟨.binary .bitOr, 5, 6⟩ else none
  | .punct .caret => some ⟨.binary .bitXor, 7, 8⟩
  | .punct .amp => some ⟨.binary .bitAnd, 9, 10⟩
  | .punct .eqEq => some ⟨.binary .eq, 11, 12⟩
  | .punct .notEq => some ⟨.binary .notEq, 11, 12⟩
  | .punct .eqEqEq => some ⟨.binary .strictEq, 11, 12⟩
  | .punct .notEqEq => some ⟨.binary .strictNotEq, 11, 12⟩
  | .punct .lt => some ⟨.binary .lt, 13, 14⟩
  | .punct .gt => some ⟨.binary .gt, 13, 14⟩
  | .punct .ltEq => some ⟨.binary .ltEq, 13, 14⟩
  | .punct .gtEq => some ⟨.binary .gtEq, 13, 14⟩
  | .keyword .in => some ⟨.binary .in, 13, 14⟩
  | .keyword .instanceof => some ⟨.binary .instanceof, 13, 14⟩
  | .punct .shl => some ⟨.binary .shl, 15, 16⟩
  | .punct .shr => some ⟨.binary .shr, 15, 16⟩
  | .punct .ushr => some ⟨.binary .ushr, 15, 16⟩
  | .punct .plus => some ⟨.binary .add, 17, 18⟩
  | .punct .minus => some ⟨.binary .sub, 17, 18⟩
  | .punct .star => some ⟨.binary .mul, 19, 20⟩
  | .punct .slash => some ⟨.binary .div, 19, 20⟩
  | .punct .percent => some ⟨.binary .rem, 19, 20⟩
  | .punct .starStar => some ⟨.binary .exp, 22, 21⟩
  | _ => none

def Token.unaryOp? : Token → Option UnaryOp
  | .punct .plus => some .plus
  | .punct .minus => some .minus
  | .punct .bang => some .not
  | .punct .tilde => some .bitNot
  | .keyword .typeof => some .typeof
  | .keyword .void => some .void
  | _ => none

def Token.memberName? : Token → Option String
  | .ident name => some name
  | .keyword word => some word.text
  | _ => none

def Infix.node (location : Location) (left right : Node) : Infix → Node
  | .binary op => .binary location op left right
  | .logical op => .logical location op left right

mutual

def parseExpr (s : Setting) : Nat → List Lexeme → Except Stop (Followed Node)
  | 0, _ => .error .outOfFuel
  | n + 1, ts => do
    let (test, ts) ← parseBinary s 0 n ts
    if startsWith .question ts then
      let (consequent, ts) ← parseExpr s n ts.tail
      let (_, ts) ← s.mark .colon ts
      let (alternate, ts) ← parseExpr s n ts
      let location := s.location (test.span.merge alternate.span)
      return (.conditional location test consequent alternate, ts)
    else return (test, ts)

def parseBinary (s : Setting) (least : Nat) : Nat → List Lexeme → Except Stop (Followed Node)
  | 0, _ => .error .outOfFuel
  | n + 1, ts => do
    let (left, ts) ← parseUnary s n ts
    parseOperators s least n left ts

def parseOperators (s : Setting) (least : Nat) :
    Nat → Node → List Lexeme → Except Stop (Followed Node)
  | 0, _, _ => .error .outOfFuel
  | _ + 1, left, [] => .ok (left, [])
  | n + 1, left, t :: ts =>
    match t.token.binding? s.nested with
    | none => .ok (left, t :: ts)
    | some b =>
      if b.left < least then .ok (left, t :: ts)
      else do
        let (right, ts) ← parseBinary s b.right n ts
        let location := s.location (left.span.merge right.span)
        parseOperators s least n (b.operator.node location left right) ts

def parseUnary (s : Setting) : Nat → List Lexeme → Except Stop (Followed Node)
  | 0, _ => .error .outOfFuel
  | n + 1, [] => parseMember s n []
  | n + 1, t :: ts =>
    match t.token.unaryOp? with
    | some op => do
      let (argument, ts) ← parseUnary s n ts
      return (.unary (s.location (t.span.merge argument.span)) op argument, ts)
    | none => parseMember s n (t :: ts)

def parseMember (s : Setting) : Nat → List Lexeme → Except Stop (Followed Node)
  | 0, _ => .error .outOfFuel
  | n + 1, ts => do
    let (object, ts) ← parsePrimary s n ts
    parseAccesses s n object ts

def parseAccesses (s : Setting) : Nat → Node → List Lexeme → Except Stop (Followed Node)
  | 0, _, _ => .error .outOfFuel
  | n + 1, object, ⟨.punct .dot, _⟩ :: ts =>
    match ts with
    | [] => .error (s.unexpected .propertyName [])
    | t :: rest =>
      match t.token.memberName? with
      | some name =>
        parseAccesses s n
          (.field (s.location (object.span.merge t.span)) object ⟨s.location t.span, name⟩) rest
      | none => .error (s.unexpected .propertyName ts)
  | n + 1, object, ⟨.punct .lbracket, _⟩ :: ts => do
    let (index, ts) ← parseExpr s.inner n ts
    let (close, ts) ← s.mark .rbracket ts
    parseAccesses s n (.index (s.location (object.span.merge close)) object index) ts
  | n + 1, object, ⟨.punct .lparen, _⟩ :: ts => do
    let (arguments, ts) ← parseItems s.inner .rparen n ts
    let (close, ts) ← s.mark .rparen ts
    parseAccesses s n (.call (s.location (object.span.merge close)) object arguments) ts
  | _ + 1, object, ts => .ok (object, ts)

/-- Expressions separated by commas up to a closing mark, which is left. A comma may stand before
the closing mark. -/
def parseItems (s : Setting) (close : Punct) :
    Nat → List Lexeme → Except Stop (Followed (List Node))
  | 0, _ => .error .outOfFuel
  | n + 1, ts =>
    if startsWith close ts then .ok ([], ts)
    else do
      let (item, ts) ← parseExpr s n ts
      if startsWith .comma ts then
        let (items, ts) ← parseItems s close n ts.tail
        return (item :: items, ts)
      else return ([item], ts)

def parsePrimary (s : Setting) : Nat → List Lexeme → Except Stop (Followed Node)
  | 0, _ => .error .outOfFuel
  | _ + 1, [] => .error (s.unexpected .expression [])
  | n + 1, ⟨token, span⟩ :: ts =>
    match token with
    | .ident name => .ok (.identifier ⟨s.location span, name⟩, ts)
    | .number value => .ok (.literal (s.location span) (.number value), ts)
    | .string text => .ok (.literal (s.location span) (.string text), ts)
    | .keyword .true => .ok (.literal (s.location span) (.boolean true), ts)
    | .keyword .false => .ok (.literal (s.location span) (.boolean false), ts)
    | .keyword .null => .ok (.literal (s.location span) .null, ts)
    | .punct .lparen => do
      let (inner, ts) ← parseExpr s.inner n ts
      let (_, ts) ← s.mark .rparen ts
      return (inner, ts)
    | .punct .lbracket => do
      let (elements, ts) ← parseItems s.inner .rbracket n ts
      let (close, ts) ← s.mark .rbracket ts
      return (.array (s.location (span.merge close)) elements, ts)
    | .punct .lbrace => do
      let (properties, ts) ← parseProperties s.inner n ts
      let (close, ts) ← s.mark .rbrace ts
      return (.object (s.location (span.merge close)) properties, ts)
    | .template body => do
      let parts ← parsePieces s (span.start + 1) n (pieces body.toList)
      return (.template (s.location span) parts, ts)
    | _ => .error (s.unexpected .expression (⟨token, span⟩ :: ts))

def parseProperties (s : Setting) : Nat → List Lexeme → Except Stop (Followed (List Property))
  | 0, _ => .error .outOfFuel
  | n + 1, ts =>
    if startsWith .rbrace ts then .ok ([], ts)
    else do
      let (property, ts) ← parseProperty s n ts
      if startsWith .comma ts then
        let (properties, ts) ← parseProperties s n ts.tail
        return (property :: properties, ts)
      else return ([property], ts)

def parseProperty (s : Setting) : Nat → List Lexeme → Except Stop (Followed Property)
  | 0, _ => .error .outOfFuel
  | _ + 1, [] => .error (s.unexpected .propertyKey [])
  | n + 1, ⟨token, span⟩ :: ts =>
    match token with
    | .punct .lbracket => do
      let (key, ts) ← parseExpr s n ts
      let (_, ts) ← s.mark .rbracket ts
      let (_, ts) ← s.mark .colon ts
      let (value, ts) ← parseExpr s n ts
      return (.computed (s.location (span.merge value.span)) key value, ts)
    | .ident name =>
      if startsWith .comma ts || startsWith .rbrace ts then
        .ok (.shorthand ⟨s.location span, name⟩, ts)
      else parseKeyed s n span (.name ⟨s.location span, name⟩) ts
    | .string text => parseKeyed s n span (.string (s.location span) text) ts
    | .number value => parseKeyed s n span (.number (s.location span) value) ts
    | .keyword word => parseKeyed s n span (.name ⟨s.location span, word.text⟩) ts
    | _ => .error (s.unexpected .propertyKey (⟨token, span⟩ :: ts))

def parseKeyed (s : Setting) : Nat → Span → Key → List Lexeme → Except Stop (Followed Property)
  | 0, _, _, _ => .error .outOfFuel
  | n + 1, span, key, ts => do
    let (_, ts) ← s.mark .colon ts
    let (value, ts) ← parseExpr s n ts
    return (.keyed (s.location (span.merge value.span)) key value, ts)

def parsePieces (s : Setting) (base : Nat) : Nat → List Piece → Except Stop (List Node)
  | 0, _ => .error .outOfFuel
  | _ + 1, [] => .ok []
  | n + 1, .text offset chars :: rest =>
    if chars.isEmpty then parsePieces s base n rest
    else do
      let span := (Span.mk offset (offset + byteLength chars)).shift base
      let parts ← parsePieces s base n rest
      return .literal (s.location span) (.string (String.ofList (unescapeChars chars))) :: parts
  | n + 1, .code offset chars :: rest => do
    let start := base + offset
    let ts ← (tokenizeFrom start 0 chars).mapError .failed
    let (part, ts) ← parseExpr ⟨s.lines, start + byteLength chars, true⟩ n ts
    finished ts
    let parts ← parsePieces s base n rest
    return part :: parts

end

theorem parseExpr_nil (s : Setting) (n : Nat) :
    parseExpr s (n + 5) [] = .error (s.unexpected .expression []) := by
  rw [parseExpr, parseBinary, parseUnary, parseMember, parsePrimary]
  rfl

def parseFilters (s : Setting) : Nat → List Lexeme → Except Stop (Followed (List Filter))
  | 0, _ => .error .outOfFuel
  | n + 1, ⟨.punct .pipe, bar⟩ :: ts =>
    match ts with
    | ⟨.ident name, span⟩ :: ts => do
      let (arguments, stop, ts) ←
        if startsWith .lparen ts then do
          let (arguments, ts) ← parseItems s.inner .rparen n ts.tail
          let (close, ts) ← s.mark .rparen ts
          pure (arguments, close.stop, ts)
        else pure ([], span.stop, ts)
      let (filters, ts) ← parseFilters s n ts
      return (⟨name, arguments, s.location ⟨bar.start, stop⟩⟩ :: filters, ts)
    | _ => .error (s.unexpected .filterName ts)
  | _ + 1, ts => .ok ([], ts)

def parsePiped (s : Setting) (fuel : Nat) (ts : List Lexeme) : Except Stop (Followed Piped) := do
  let (expression, ts) ← parseExpr s fuel ts
  let (filters, ts) ← parseFilters s fuel ts
  let stop := (filters.getLast?.map (·.location.stop.offset)).getD expression.location.stop.offset
  return (⟨expression, filters, s.location ⟨expression.location.start.offset, stop⟩⟩, ts)

/-- A bound on the depth of recursion that no parse of the text reaches. -/
def fuelFor (cs : List Char) : Nat := 16 * (cs.length + 2)

def Stop.error (stop : Nat) : Stop → Error
  | .failed e => e
  | .outOfFuel => ⟨.expected .expression none, .empty stop⟩

def runParser {α : Type} (nested : Bool)
    (parser : Setting → Nat → List Lexeme → Except Stop (Followed α)) (source : String) :
    Except Error α :=
  let cs := source.toList
  let s : Setting := ⟨LineIndex.ofChars cs, byteLength cs, nested⟩
  let result : Except Stop α := do
    let ts ← (tokenizeFrom 0 0 cs).mapError .failed
    let (value, ts) ← parser s (fuelFor cs) ts
    finished ts
    return value
  result.mapError (Stop.error s.stop)

def parse (source : String) : Except Error Piped :=
  runParser false parsePiped source

/-- Parses an expression; a bar is the bitwise operator everywhere. -/
def parseExpression (source : String) : Except Error Node :=
  runParser true parseExpr source

end VueToSan.Expr
