import VueToSan.Expr.Node
import VueToSan.Json.Value

/-!
# Expressions as JSON

A node is an object with one member, named for the kind of the node. Locations are left out.
-/

namespace VueToSan.Expr

open VueToSan.Json

def UnaryOp.name : UnaryOp → String
  | plus => "Plus" | minus => "Minus" | not => "Not"
  | bitNot => "BitNot" | typeof => "Typeof" | void => "Void"

def BinaryOp.name : BinaryOp → String
  | add => "Add" | sub => "Sub" | mul => "Mul" | div => "Div" | rem => "Rem" | exp => "Exp"
  | lt => "Lt" | gt => "Gt" | ltEq => "LtEq" | gtEq => "GtEq"
  | eq => "Eq" | notEq => "NotEq" | strictEq => "StrictEq" | strictNotEq => "StrictNotEq"
  | bitAnd => "BitAnd" | bitOr => "BitOr" | bitXor => "BitXor"
  | shl => "Shl" | shr => "Shr" | ushr => "UShr"
  | «in» => "In" | instanceof => "Instanceof"

def LogicalOp.name : LogicalOp → String
  | and => "And" | or => "Or" | nullish => "Nullish"

def identifierJson (name : String) : Value :=
  .tagged "Identifier" (.object [⟨"name", .string name⟩])

def Literal.json (literal : Literal) : Value :=
  let value := match literal with
    | .number x => .tagged "Number" (.number x)
    | .string s => .tagged "String" (.string s)
    | .boolean b => .tagged "Boolean" (.bool b)
    | .null => .string "Null"
  .tagged "Literal" (.object [⟨"value", value⟩])

def Key.json : Key → Value
  | .name n => identifierJson n.text
  | .string _ s => (Literal.string s).json
  | .number _ x => (Literal.number x).json

def memberJson (object property : Value) (computed : Bool) : Value :=
  .tagged "Member"
    (.object [⟨"object", object⟩, ⟨"property", property⟩, ⟨"computed", .bool computed⟩])

def propertyJson (key value : Value) (computed shorthand : Bool) : Value :=
  .object [⟨"key", key⟩, ⟨"value", value⟩, ⟨"computed", .bool computed⟩,
    ⟨"shorthand", .bool shorthand⟩]

mutual

def Node.json : Node → Value
  | .identifier n => identifierJson n.text
  | .literal _ v => v.json
  | .array _ es => .tagged "Array" (.object [⟨"elements", .array (nodesJson es)⟩])
  | .object _ ps => .tagged "Object" (.object [⟨"properties", .array (propertiesJson ps)⟩])
  | .unary _ op a => .tagged "Unary" (.object [⟨"operator", .string op.name⟩, ⟨"argument", a.json⟩])
  | .binary _ op l r =>
    .tagged "Binary" (.object [⟨"operator", .string op.name⟩, ⟨"left", l.json⟩, ⟨"right", r.json⟩])
  | .logical _ op l r =>
    .tagged "Logical" (.object [⟨"operator", .string op.name⟩, ⟨"left", l.json⟩, ⟨"right", r.json⟩])
  | .conditional _ t c a =>
    .tagged "Conditional"
      (.object [⟨"test", t.json⟩, ⟨"consequent", c.json⟩, ⟨"alternate", a.json⟩])
  | .field _ o n => memberJson o.json (identifierJson n.text) false
  | .index _ o i => memberJson o.json i.json true
  | .call _ c args =>
    .tagged "Call" (.object [⟨"callee", c.json⟩, ⟨"arguments", .array (nodesJson args)⟩])
  | .template _ ps => .tagged "Template" (.object [⟨"expressions", .array (nodesJson ps)⟩])

def nodesJson : List Node → List Value
  | [] => []
  | e :: es => e.json :: nodesJson es

def Property.json : Property → Value
  | .shorthand n => propertyJson (identifierJson n.text) (identifierJson n.text) false true
  | .keyed _ k v => propertyJson k.json v.json false false
  | .computed _ k v => propertyJson k.json v.json true false

def propertiesJson : List Property → List Value
  | [] => []
  | p :: ps => p.json :: propertiesJson ps

end

def Filter.json (f : Filter) : Value :=
  .object [⟨"name", .string f.name⟩, ⟨"arguments", .array (nodesJson f.arguments)⟩]

def Piped.json (p : Piped) : Value :=
  .object [⟨"expression", p.expression.json⟩, ⟨"filters", .array (p.filters.map Filter.json)⟩]

end VueToSan.Expr
