import VueToSan.Expr.Constant
import VueToSan.Expr.Parser
import VueToSan.Source.Frame
import VueToSan.Text.Search

/-!
# Code for expressions

An expression is written again in the smaller expression language of the target. Parts with constant
operands are folded, template strings become sums, and objects with computed keys become calls of
the helpers `_ex` and `_ocp`. Operators that the target lacks are refused.
-/

namespace VueToSan.Expr

open VueToSan.Text

inductive ForeignOp where
  | unary (op : UnaryOp)
  | binary (op : BinaryOp)
  | logical (op : LogicalOp)
deriving DecidableEq, Repr

def ForeignOp.message : ForeignOp → String
  | .unary op => "unknown unary operator \"" ++ op.text ++ "\""
  | .binary op => "invalid binary operator \"" ++ op.text ++ "\""
  | .logical op => "invalid logical operator \"" ++ op.text ++ "\""

structure Inadmissible where
  operator : ForeignOp
  location : Location
deriving DecidableEq, Repr

inductive CodeError where
  | unreadable (source : String) (error : Error)
  | inadmissible (source : String) (use : Inadmissible)

namespace CodeError

def header : CodeError → String
  | unreadable source error =>
    "SyntaxError is found when parsing code \"" ++ source ++ "\", " ++ error.message
  | inadmissible _ use =>
    "[vusa expression parser] (" ++ Nat.repr use.location.start.line ++ ":" ++
      Nat.repr use.location.start.column ++ ") : " ++ use.operator.message

def message : CodeError → String
  | unreadable source error => (unreadable source error).header
  | inadmissible source use =>
    (inadmissible source use).header ++ "\n" ++
      Frame.render source use.location.span use.operator.message

end CodeError

def admittedUnary : List UnaryOp := [.plus, .minus, .not]

def admittedBinary : List BinaryOp :=
  [.add, .sub, .mul, .div, .rem, .gt, .lt, .gtEq, .ltEq, .eq, .strictEq, .notEq, .strictNotEq]

def admittedLogical : List LogicalOp := [.and, .or]

structure Code where
  text : String
  type : Option ValueType
  constant : Option Constant

namespace Code

def plain (text : String) : Code := ⟨text, none, none⟩

def typed (text : String) (type : ValueType) : Code := ⟨text, some type, none⟩

def ofConstant (c : Constant) : Code := ⟨c.emit, some c.type, some c⟩

end Code

/-- Puts code in parentheses unless its node delimits itself or is an equality. -/
def wrap (code : String) : Node → String
  | .binary _ op _ _ => if op.isEquality then code else "(" ++ code ++ ")"
  | .logical .. => "(" ++ code ++ ")"
  | .conditional .. => "(" ++ code ++ ")"
  | _ => code

def joinOperator (left op right : String) : String :=
  if (op == "+" || op == "-") && op.toList.isPrefixOf right.toList then left ++ op ++ " " ++ right
  else left ++ op ++ right

def Key.code : Key → String
  | .name n => n.text
  | .string _ text => quote text
  | .number _ value => quote (formatNumber value)

structure PropertyCode where
  text : String
  computed : Bool
deriving DecidableEq, Repr

def joint : Option Bool → Bool → String
  | none, false => "\x7b"
  | none, true => "_ocp(["
  | some false, true => "\x7d,_ocp(["
  | some true, false => "]),\x7b"
  | some _, _ => ","

def runsFrom (before : Option Bool) : List PropertyCode → String
  | [] => if before = some true then "]))" else "\x7d)"
  | p :: ps => joint before p.computed ++ p.text ++ runsFrom (some p.computed) ps

/-- The code of an object: runs of plain and of computed properties are arguments of `_ex` unless
all are plain. -/
def objectCode (ps : List PropertyCode) : Code :=
  if ps.any (·.computed) then .plain ("_ex(" ++ runsFrom none ps)
  else .typed ("\x7b" ++ joinWith "," (ps.map (·.text)) ++ "\x7d") .object

def fieldCode (object : Code) (wrapped name : String) : Code :=
  if name == "length" && object.type == some .string then
    match object.constant with
    | some (.string s) => .ofConstant (.number (Number.ofNat (units s).length))
    | _ => .typed (wrapped ++ ".length") .number
  else .plain (wrapped ++ "." ++ name)

mutual

/-- The code of an expression. Operands are written before their operator is looked at, and a
property's value before its computed key. -/
def generate : Node → Except Inadmissible Code
  | .identifier name => .ok (.plain name.text)
  | .literal _ value => .ok (.ofConstant value.constant)
  | .field _ object name => do
    let code ← generate object
    return fieldCode code (wrap code.text object) name.text
  | .index _ object index => do
    let code ← generate object
    let inner ← generate index
    return .plain (wrap code.text object ++ "[" ++ inner.text ++ "]")
  | .unary location op argument => do
    let code ← generate argument
    if op ∉ admittedUnary then throw ⟨.unary op, location⟩
    match code.constant.bind (Constant.unary? op) with
    | some folded => return .ofConstant folded
    | none => return .plain (joinOperator "" op.text (wrap code.text argument))
  | .binary location op left right => do
    let l ← generate left
    let r ← generate right
    if op ∉ admittedBinary then throw ⟨.binary op, location⟩
    match l.constant.bind fun a => r.constant.bind fun b => Constant.binary? op a b with
    | some folded => return .ofConstant folded
    | none => return .plain (joinOperator (wrap l.text left) op.text (wrap r.text right))
  | .logical location op left right => do
    let l ← generate left
    let r ← generate right
    if op ∉ admittedLogical then throw ⟨.logical op, location⟩
    match l.constant.bind fun a => r.constant.bind fun b => Constant.logical? op a b with
    | some folded => return .ofConstant folded
    | none => return .plain (wrap l.text left ++ op.text ++ wrap r.text right)
  | .conditional _ test consequent alternate => do
    let t ← generate test
    let c ← generate consequent
    let a ← generate alternate
    match t.constant with
    | some value => return if value.isTruthy then c else a
    | none =>
      return .plain (wrap t.text test ++ "?" ++ wrap c.text consequent ++ ":" ++
        wrap a.text alternate)
  | .call _ callee arguments => do
    let code ← generate callee
    let args ← generateList arguments
    return .plain (wrap code.text callee ++ "(" ++ joinWith ", " args ++ ")")
  | .template _ parts => do
    let codes ← generateParts parts
    if parts.isEmpty then return .ofConstant (.string "")
    return .typed ("(" ++ joinWith "+" codes ++ ")") .string
  | .array _ elements => do
    let codes ← generateList elements
    return .typed ("[" ++ joinWith ", " codes ++ "]") .array
  | .object _ properties => do
    let codes ← generateProperties properties
    return objectCode codes

def generateList : List Node → Except Inadmissible (List String)
  | [] => .ok []
  | e :: es => do
    let code ← generate e
    let codes ← generateList es
    return code.text :: codes

def generateParts : List Node → Except Inadmissible (List String)
  | [] => .ok []
  | e :: es => do
    let code ← generate e
    let codes ← generateParts es
    return wrap code.text e :: codes

def generateProperties : List Property → Except Inadmissible (List PropertyCode)
  | [] => .ok []
  | p :: ps => do
    let code ← generateProperty p
    let codes ← generateProperties ps
    return code :: codes

def generateProperty : Property → Except Inadmissible PropertyCode
  | .shorthand name => .ok ⟨name.text ++ ":" ++ name.text, false⟩
  | .keyed _ key value => do
    let code ← generate value
    return ⟨key.code ++ ":" ++ code.text, false⟩
  | .computed _ key value => do
    let code ← generate value
    let keyCode ← generate key
    return ⟨"\x7bk:" ++ keyCode.text ++ ",v:" ++ code.text ++ "\x7d", true⟩

end

/-- Stands for the piped value in the code of a filter until that value is put in. -/
def filterMark : String := "__vusa__filter__mark__"

def filterCode (f : Filter) : Except Inadmissible String := do
  let args ← generateList f.arguments
  let call := if f.arguments.isEmpty then "" else "(" ++ joinWith ", " args ++ ")"
  return filterMark ++ " | " ++ f.name ++ call

def applyFilters (code : String) : List Filter → Except Inadmissible String
  | [] => .ok code
  | f :: fs => do
    let applied ← filterCode f
    applyFilters (String.ofList (replace filterMark.toList code.toList applied.toList)) fs

def generatePiped (e : Piped) : Except Inadmissible Code := do
  let base ← generate e.expression
  if e.filters.isEmpty then return base
  let code ← applyFilters base.text e.filters
  return .plain code

structure Compiled where
  expression : Option Node
  code : Code

namespace Compiled

def text (c : Compiled) : String := c.code.text

def isConstant (c : Compiled) : Bool := c.code.constant.isSome

def isIdentifier (c : Compiled) : Bool :=
  c.expression.any (·.isIdentifier)

def isAssignable (c : Compiled) : Bool :=
  match c.expression with
  | some (.identifier _) | some (.field ..) | some (.index ..) => true
  | _ => false

end Compiled

def compile (source : String) : Except CodeError Compiled :=
  if allBlank source then .ok ⟨none, .plain ""⟩
  else do
    let parsed ← (parse source).mapError (.unreadable source)
    let code ← (generatePiped parsed).mapError (.inadmissible source)
    return ⟨some parsed.expression, code⟩

end VueToSan.Expr
