import VueToSan.Source.Lines

/-!
# Expression trees
-/

namespace VueToSan.Expr

inductive UnaryOp where
  | plus | minus | not | bitNot | typeof | void
deriving DecidableEq, Repr

namespace UnaryOp

def text : UnaryOp → String
  | plus => "+" | minus => "-" | not => "!" | bitNot => "~" | typeof => "typeof" | void => "void"

def all : List UnaryOp := [plus, minus, not, bitNot, typeof, void]

end UnaryOp

inductive BinaryOp where
  | add | sub | mul | div | rem | exp
  | lt | gt | ltEq | gtEq | eq | notEq | strictEq | strictNotEq
  | bitAnd | bitOr | bitXor | shl | shr | ushr | «in» | instanceof
deriving DecidableEq, Repr

namespace BinaryOp

def text : BinaryOp → String
  | add => "+" | sub => "-" | mul => "*" | div => "/" | rem => "%" | exp => "**"
  | lt => "<" | gt => ">" | ltEq => "<=" | gtEq => ">="
  | eq => "==" | notEq => "!=" | strictEq => "===" | strictNotEq => "!=="
  | bitAnd => "&" | bitOr => "|" | bitXor => "^" | shl => "<<" | shr => ">>" | ushr => ">>>"
  | «in» => "in" | instanceof => "instanceof"

def all : List BinaryOp :=
  [add, sub, mul, div, rem, exp, lt, gt, ltEq, gtEq, eq, notEq, strictEq, strictNotEq,
   bitAnd, bitOr, bitXor, shl, shr, ushr, «in», instanceof]

def isEquality : BinaryOp → Bool
  | eq | notEq | strictEq | strictNotEq => true
  | _ => false

end BinaryOp

inductive LogicalOp where
  | and | or | nullish
deriving DecidableEq, Repr

namespace LogicalOp

def text : LogicalOp → String
  | and => "&&" | or => "||" | nullish => "??"

def all : List LogicalOp := [and, or, nullish]

end LogicalOp

inductive Literal where
  | number (value : Float)
  | string (text : String)
  | boolean (value : Bool)
  | null

structure Name where
  location : Location
  text : String
deriving DecidableEq, Repr

inductive Key where
  | name (name : Name)
  | string (location : Location) (text : String)
  | number (location : Location) (value : Float)

mutual

inductive Node where
  | identifier (name : Name)
  | literal (location : Location) (value : Literal)
  | array (location : Location) (elements : List Node)
  | object (location : Location) (properties : List Property)
  | unary (location : Location) (op : UnaryOp) (argument : Node)
  | binary (location : Location) (op : BinaryOp) (left right : Node)
  | logical (location : Location) (op : LogicalOp) (left right : Node)
  | conditional (location : Location) (test consequent alternate : Node)
  /-- `object.name` -/
  | field (location : Location) (object : Node) (name : Name)
  /-- `object[index]` -/
  | index (location : Location) (object index : Node)
  | call (location : Location) (callee : Node) (arguments : List Node)
  /-- A template string; its non-empty texts are string literals. -/
  | template (location : Location) (parts : List Node)

inductive Property where
  /-- `name` alone, which is its own value. -/
  | shorthand (name : Name)
  | keyed (location : Location) (key : Key) (value : Node)
  /-- `[key]: value` -/
  | computed (location : Location) (key value : Node)

end

namespace Node

def location : Node → Location
  | identifier name => name.location
  | literal location _ => location
  | array location _ => location
  | object location _ => location
  | unary location _ _ => location
  | binary location _ _ _ => location
  | logical location _ _ _ => location
  | conditional location _ _ _ => location
  | field location _ _ => location
  | index location _ _ => location
  | call location _ _ => location
  | template location _ => location

def span (e : Node) : Span := e.location.span

def isIdentifier : Node → Bool
  | identifier _ => true
  | _ => false

end Node

namespace Property

def location : Property → Location
  | shorthand name => name.location
  | keyed location _ _ => location
  | computed location _ _ => location

def isComputed : Property → Bool
  | computed .. => true
  | _ => false

end Property

structure Filter where
  name : String
  arguments : List Node
  location : Location

structure Piped where
  expression : Node
  filters : List Filter
  location : Location

inductive Kind where
  | identifier | literal | array | object | property | unary | binary | logical | conditional
  | member | call | template | piped | filter
deriving DecidableEq, Repr

namespace Kind

def text : Kind → String
  | identifier => "Identifier"
  | literal => "Literal"
  | array => "ArrayExpression"
  | object => "ObjectExpression"
  | property => "Property"
  | unary => "UnaryExpression"
  | binary => "BinaryExpression"
  | logical => "LogicalExpression"
  | conditional => "ConditionalExpression"
  | member => "MemberExpression"
  | call => "CallExpression"
  | template => "TemplateExpression"
  | piped => "VueExpression"
  | filter => "VueFilter"

def all : List Kind :=
  [identifier, literal, array, object, property, unary, binary, logical, conditional, member, call,
   template, piped, filter]

end Kind

def Node.kind : Node → Kind
  | identifier _ => .identifier
  | literal .. => .literal
  | array .. => .array
  | object .. => .object
  | unary .. => .unary
  | binary .. => .binary
  | logical .. => .logical
  | conditional .. => .conditional
  | field .. => .member
  | index .. => .member
  | call .. => .call
  | template .. => .template

end VueToSan.Expr
