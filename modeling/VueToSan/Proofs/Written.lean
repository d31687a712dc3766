import VueToSan.Expr.Parser

/-!
# Written expressions

`Writes` relates an expression without template strings to the token lists that write it. A
sub-expression stands in parentheses wherever its place asks for them by the table of binding
powers, and anywhere else it may. Behind the last item of a list one more comma is allowed.

Locations play no part: trees are compared after `Node.unlocated`.
-/

namespace VueToSan.Expr

/-! ## Trees without locations -/

def Name.unlocated (n : Name) : Name := ⟨default, n.text⟩

def Key.unlocated : Key → Key
  | .name n => .name n.unlocated
  | .string _ text => .string default text
  | .number _ value => .number default value

mutual

def Node.unlocated : Node → Node
  | .identifier name => .identifier name.unlocated
  | .literal _ value => .literal default value
  | .array _ elements => .array default (unlocatedList elements)
  | .object _ properties => .object default (unlocatedProperties properties)
  | .unary _ op argument => .unary default op argument.unlocated
  | .binary _ op left right => .binary default op left.unlocated right.unlocated
  | .logical _ op left right => .logical default op left.unlocated right.unlocated
  | .conditional _ test consequent alternate =>
    .conditional default test.unlocated consequent.unlocated alternate.unlocated
  | .field _ object name => .field default object.unlocated name.unlocated
  | .index _ object index => .index default object.unlocated index.unlocated
  | .call _ callee arguments => .call default callee.unlocated (unlocatedList arguments)
  | .template _ parts => .template default (unlocatedList parts)

def unlocatedList : List Node → List Node
  | [] => []
  | e :: es => e.unlocated :: unlocatedList es

def unlocatedProperties : List Property → List Property
  | [] => []
  | p :: ps => p.unlocated :: unlocatedProperties ps

def Property.unlocated : Property → Property
  | .shorthand name => .shorthand name.unlocated
  | .keyed _ key value => .keyed default key.unlocated value.unlocated
  | .computed _ key value => .computed default key.unlocated value.unlocated

end

def Filter.unlocated (f : Filter) : Filter := ⟨f.name, unlocatedList f.arguments, default⟩

def Piped.unlocated (e : Piped) : Piped :=
  ⟨e.expression.unlocated, e.filters.map Filter.unlocated, default⟩

/-! ## Tokens of operators and literals -/

def UnaryOp.token : UnaryOp → Token
  | .plus => .punct .plus
  | .minus => .punct .minus
  | .not => .punct .bang
  | .bitNot => .punct .tilde
  | .typeof => .keyword .typeof
  | .void => .keyword .void

def BinaryOp.token : BinaryOp → Token
  | .add => .punct .plus
  | .sub => .punct .minus
  | .mul => .punct .star
  | .div => .punct .slash
  | .rem => .punct .percent
  | .exp => .punct .starStar
  | .lt => .punct .lt
  | .gt => .punct .gt
  | .ltEq => .punct .ltEq
  | .gtEq => .punct .gtEq
  | .eq => .punct .eqEq
  | .notEq => .punct .notEq
  | .strictEq => .punct .eqEqEq
  | .strictNotEq => .punct .notEqEq
  | .bitAnd => .punct .amp
  | .bitOr => .punct .pipe
  | .bitXor => .punct .caret
  | .shl => .punct .shl
  | .shr => .punct .shr
  | .ushr => .punct .ushr
  | .in => .keyword .in
  | .instanceof => .keyword .instanceof

def LogicalOp.token : LogicalOp → Token
  | .and => .punct .ampAmp
  | .or => .punct .pipePipe
  | .nullish => .punct .questionQuestion

def Literal.token : Literal → Token
  | .number value => .number value
  | .string text => .string text
  | .boolean true => .keyword .true
  | .boolean false => .keyword .false
  | .null => .keyword .null

namespace Infix

def token : Infix → Token
  | .binary op => op.token
  | .logical op => op.token

def left (op : Infix) : Nat := ((op.token.binding? true).map (·.left)).getD 0

def right (op : Infix) : Nat := ((op.token.binding? true).map (·.right)).getD 0

end Infix

/-! ## Places for sub-expressions -/

/-- What decides whether an expression needs parentheses. -/
inductive Shape where
  /-- Literals, identifiers, brackets, members and calls. -/
  | primary
  | unary
  | joined (op : Infix)
  | conditional

def Node.shape : Node → Shape
  | .unary .. => .unary
  | .binary _ op _ _ => .joined (.binary op)
  | .logical _ op _ _ => .joined (.logical op)
  | .conditional .. => .conditional
  | _ => .primary

inductive Place where
  /-- In front of an operator. -/
  | left (op : Infix)
  /-- Behind an operator. -/
  | right (op : Infix)
  /-- Behind a unary operator. -/
  | operand
  /-- In front of a member access or a call. -/
  | object
  /-- In front of a question mark. -/
  | test
  | free

def Place.admits : Place → Shape → Prop
  | left op, .joined inner => op.left < inner.right
  | right op, .joined inner => op.right ≤ inner.left
  | operand, .joined _ => False
  | object, .joined _ => False
  | object, .unary => False
  | free, _ => True
  | _, .conditional => False
  | _, _ => True

/-! ## The relation -/

inductive Form where
  /-- An expression without parentheses around it. -/
  | node (e : Node)
  /-- An expression at a place, in parentheses or not. -/
  | placed (p : Place) (e : Node)
  | items (es : List Node)
  | property (p : Property)
  | properties (ps : List Property)

def Key.WrittenBy : Key → Token → Prop
  | .name n, t => t.memberName? = some n.text
  | .string _ text, t => t = .string text
  | .number _ value, t => t = .number value

/-- The token lists that write a form. Outside all brackets, where `nested` is false, a bar is no
operator. -/
inductive Writes : (nested : Bool) → Form → List Token → Prop where
  | identifier {nested : Bool} {n : Name} :
      Writes nested (.node (.identifier n)) [.ident n.text]
  | literal {nested : Bool} {l : Location} {v : Literal} :
      Writes nested (.node (.literal l v)) [v.token]
  | array {nested : Bool} {l : Location} {es : List Node} {ts : List Token} :
      Writes true (.items es) ts →
      Writes nested (.node (.array l es)) (.punct .lbracket :: (ts ++ [.punct .rbracket]))
  | object {nested : Bool} {l : Location} {ps : List Property} {ts : List Token} :
      Writes true (.properties ps) ts →
      Writes nested (.node (.object l ps)) (.punct .lbrace :: (ts ++ [.punct .rbrace]))
  | unary {nested : Bool} {l : Location} {op : UnaryOp} {a : Node} {ts : List Token} :
      Writes nested (.placed .operand a) ts →
      Writes nested (.node (.unary l op a)) (op.token :: ts)
  | joined {nested : Bool} {l : Location} {op : Infix} {a b : Node} {ts us : List Token} :
      nested = true ∨ op ≠ .binary .bitOr →
      Writes nested (.placed (.left op) a) ts →
      Writes nested (.placed (.right op) b) us →
      Writes nested (.node (op.node l a b)) (ts ++ op.token :: us)
  | conditional {nested : Bool} {l : Location} {t x y : Node} {ts us vs : List Token} :
      Writes nested (.placed .test t) ts →
      Writes nested (.placed .free x) us →
      Writes nested (.placed .free y) vs →
      Writes nested (.node (.conditional l t x y))
        (ts ++ .punct .question :: (us ++ .punct .colon :: vs))
  | field {nested : Bool} {l : Location} {o : Node} {n : Name} {t : Token} {ts : List Token} :
      Writes nested (.placed .object o) ts → t.memberName? = some n.text →
      Writes nested (.node (.field l o n)) (ts ++ [.punct .dot, t])
  | index {nested : Bool} {l : Location} {o i : Node} {ts us : List Token} :
      Writes nested (.placed .object o) ts → Writes true (.placed .free i) us →
      Writes nested (.node (.index l o i))
        (ts ++ .punct .lbracket :: (us ++ [.punct .rbracket]))
  | call {nested : Bool} {l : Location} {f : Node} {args : List Node} {ts us : List Token} :
      Writes nested (.placed .object f) ts → Writes true (.items args) us →
      Writes nested (.node (.call l f args)) (ts ++ .punct .lparen :: (us ++ [.punct .rparen]))
  | bare {nested : Bool} {p : Place} {e : Node} {ts : List Token} :
      p.admits e.shape → Writes nested (.node e) ts → Writes nested (.placed p e) ts
  | parens {nested : Bool} {p : Place} {e : Node} {ts : List Token} :
      Writes true (.placed .free e) ts →
      Writes nested (.placed p e) (.punct .lparen :: (ts ++ [.punct .rparen]))
  | noItems {nested : Bool} : Writes nested (.items []) []
  | lastItem {nested : Bool} {e : Node} {ts : List Token} :
      Writes nested (.placed .free e) ts → Writes nested (.items [e]) ts
  | moreItems {nested : Bool} {e : Node} {es : List Node} {ts us : List Token} :
      Writes nested (.placed .free e) ts → Writes nested (.items es) us →
      Writes nested (.items (e :: es)) (ts ++ .punct .comma :: us)
  | shorthand {nested : Bool} {n : Name} :
      Writes nested (.property (.shorthand n)) [.ident n.text]
  | keyed {nested : Bool} {l : Location} {k : Key} {v : Node} {t : Token} {ts : List Token} :
      k.WrittenBy t → Writes nested (.placed .free v) ts →
      Writes nested (.property (.keyed l k v)) (t :: .punct .colon :: ts)
  | computed {nested : Bool} {l : Location} {k v : Node} {ts us : List Token} :
      Writes nested (.placed .free k) ts → Writes nested (.placed .free v) us →
      Writes nested (.property (.computed l k v))
        (.punct .lbracket :: (ts ++ .punct .rbracket :: .punct .colon :: us))
  | noProperties {nested : Bool} : Writes nested (.properties []) []
  | lastProperty {nested : Bool} {p : Property} {ts : List Token} :
      Writes nested (.property p) ts → Writes nested (.properties [p]) ts
  | moreProperties {nested : Bool} {p : Property} {ps : List Property} {ts us : List Token} :
      Writes nested (.property p) ts → Writes nested (.properties ps) us →
      Writes nested (.properties (p :: ps)) (ts ++ .punct .comma :: us)

end VueToSan.Expr
