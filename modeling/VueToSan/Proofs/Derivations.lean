import VueToSan.Proofs.PartParses

/-!
# Derivations

What a parse that succeeds has done, rule by rule and without its fuel: which tokens it took, which
parts it parsed them to, and which locations it gave to the tree. Facts about all parses are proved
by induction on derivations.
-/

namespace VueToSan.Expr

open VueToSan.Text

def Token.literal? : Token → Option Literal
  | .number value => some (.number value)
  | .string text => some (.string text)
  | .keyword .true => some (.boolean true)
  | .keyword .false => some (.boolean false)
  | .keyword .null => some .null
  | _ => none

def Token.key? (location : Location) : Token → Option Key
  | .ident name => some (.name ⟨location, name⟩)
  | .keyword word => some (.name ⟨location, word.text⟩)
  | .string text => some (.string location text)
  | .number value => some (.number location value)
  | _ => none

mutual

inductive ExprDerived : Setting → List Lexeme → Node → List Lexeme → Prop where
  | identifier {s name span ts} :
      ExprDerived s (⟨.ident name, span⟩ :: ts) (.identifier ⟨s.location span, name⟩) ts
  | literal {s t ts value} : t.token.literal? = some value →
      ExprDerived s (t :: ts) (.literal (s.location t.span) value) ts
  | parens {s a ts e b rest} : ExprDerived s.inner ts e (⟨.punct .rparen, b⟩ :: rest) →
      ExprDerived s (⟨.punct .lparen, a⟩ :: ts) e rest
  | array {s a ts es b rest} : ItemsDerived s.inner ts es (⟨.punct .rbracket, b⟩ :: rest) →
      ExprDerived s (⟨.punct .lbracket, a⟩ :: ts) (.array (s.location (a.merge b)) es) rest
  | object {s a ts ps b rest} : PropertiesDerived s.inner ts ps (⟨.punct .rbrace, b⟩ :: rest) →
      ExprDerived s (⟨.punct .lbrace, a⟩ :: ts) (.object (s.location (a.merge b)) ps) rest
  | template {s body span ts parts} : PartsDerived s (span.start + 1) (pieces body.toList) parts →
      ExprDerived s (⟨.template body, span⟩ :: ts) (.template (s.location span) parts) ts
  | field {s ts object a t rest name} : ExprDerived s ts object (⟨.punct .dot, a⟩ :: t :: rest) →
      t.token.memberName? = some name →
      ExprDerived s ts (.field (s.location (object.span.merge t.span)) object
        ⟨s.location t.span, name⟩) rest
  | index {s ts object a us i b rest} : ExprDerived s ts object (⟨.punct .lbracket, a⟩ :: us) →
      ExprDerived s.inner us i (⟨.punct .rbracket, b⟩ :: rest) →
      ExprDerived s ts (.index (s.location (object.span.merge b)) object i) rest
  | call {s ts f a us es b rest} : ExprDerived s ts f (⟨.punct .lparen, a⟩ :: us) →
      ItemsDerived s.inner us es (⟨.punct .rparen, b⟩ :: rest) →
      ExprDerived s ts (.call (s.location (f.span.merge b)) f es) rest
  | unary {s t ts op e rest} : t.token.unaryOp? = some op → ExprDerived s ts e rest →
      ExprDerived s (t :: ts) (.unary (s.location (t.span.merge e.span)) op e) rest
  | operator {s ts left t us b right rest} : ExprDerived s ts left (t :: us) →
      t.token.binding? s.nested = some b → ExprDerived s us right rest →
      ExprDerived s ts (b.operator.node (s.location (left.span.merge right.span)) left right) rest
  | conditional {s ts test a us x b vs y rest} :
      ExprDerived s ts test (⟨.punct .question, a⟩ :: us) →
      ExprDerived s us x (⟨.punct .colon, b⟩ :: vs) → ExprDerived s vs y rest →
      ExprDerived s ts (.conditional (s.location (test.span.merge y.span)) test x y) rest

inductive ItemsDerived : Setting → List Lexeme → List Node → List Lexeme → Prop where
  | nil {s ts} : ItemsDerived s ts [] ts
  | last {s ts e rest} : ExprDerived s ts e rest → ItemsDerived s ts [e] rest
  | more {s ts e a us es rest} : ExprDerived s ts e (⟨.punct .comma, a⟩ :: us) →
      ItemsDerived s us es rest → ItemsDerived s ts (e :: es) rest

inductive PropertiesDerived : Setting → List Lexeme → List Property → List Lexeme → Prop where
  | nil {s ts} : PropertiesDerived s ts [] ts
  | last {s ts p rest} : PropertyDerived s ts p rest → PropertiesDerived s ts [p] rest
  | more {s ts p a us ps rest} : PropertyDerived s ts p (⟨.punct .comma, a⟩ :: us) →
      PropertiesDerived s us ps rest → PropertiesDerived s ts (p :: ps) rest

inductive PropertyDerived : Setting → List Lexeme → Property → List Lexeme → Prop where
  | shorthand {s name span ts} :
      PropertyDerived s (⟨.ident name, span⟩ :: ts) (.shorthand ⟨s.location span, name⟩) ts
  | keyed {s t key a us value rest} : t.token.key? (s.location t.span) = some key →
      ExprDerived s us value rest →
      PropertyDerived s (t :: ⟨.punct .colon, a⟩ :: us)
        (.keyed (s.location (t.span.merge value.span)) key value) rest
  | computed {s a ts key b c us value rest} :
      ExprDerived s ts key (⟨.punct .rbracket, b⟩ :: ⟨.punct .colon, c⟩ :: us) →
      ExprDerived s us value rest →
      PropertyDerived s (⟨.punct .lbracket, a⟩ :: ts)
        (.computed (s.location (a.merge value.span)) key value) rest

/-- The pieces of a template whose body starts at an offset are parsed to its parts. -/
inductive PartsDerived : Setting → Nat → List Piece → List Node → Prop where
  | nil {s base} : PartsDerived s base [] []
  | empty {s base offset ps parts} : PartsDerived s base ps parts →
      PartsDerived s base (.text offset [] :: ps) parts
  | text {s base offset chars ps parts} : chars ≠ [] → PartsDerived s base ps parts →
      PartsDerived s base (.text offset chars :: ps)
        (.literal (s.location ((Span.mk offset (offset + byteLength chars)).shift base))
          (.string (String.ofList (unescapeChars chars))) :: parts)
  | code {s base offset chars ts e ps parts} :
      tokenizeFrom (base + offset) 0 chars = .ok ts →
      ExprDerived ⟨s.lines, base + offset + byteLength chars, true⟩ ts e [] →
      PartsDerived s base ps parts → PartsDerived s base (.code offset chars :: ps) (e :: parts)

end

/-- What the parser's functions derive with a given fuel. The loops go on from the derivation of the
operand that they start with. -/
structure Derives (n : Nat) : Prop where
  expr : ∀ {s ts e rest}, parseExpr s n ts = .ok (e, rest) → ExprDerived s ts e rest
  binary : ∀ {s least ts e rest}, parseBinary s least n ts = .ok (e, rest) →
    ExprDerived s ts e rest
  operators : ∀ {s least all left ts e rest}, ExprDerived s all left ts →
    parseOperators s least n left ts = .ok (e, rest) → ExprDerived s all e rest
  unary : ∀ {s ts e rest}, parseUnary s n ts = .ok (e, rest) → ExprDerived s ts e rest
  member : ∀ {s ts e rest}, parseMember s n ts = .ok (e, rest) → ExprDerived s ts e rest
  accesses : ∀ {s all object ts e rest}, ExprDerived s all object ts →
    parseAccesses s n object ts = .ok (e, rest) → ExprDerived s all e rest
  items : ∀ {s close ts es rest}, parseItems s close n ts = .ok (es, rest) →
    ItemsDerived s ts es rest
  primary : ∀ {s ts e rest}, parsePrimary s n ts = .ok (e, rest) → ExprDerived s ts e rest
  properties : ∀ {s ts ps rest}, parseProperties s n ts = .ok (ps, rest) →
    PropertiesDerived s ts ps rest
  property : ∀ {s ts p rest}, parseProperty s n ts = .ok (p, rest) → PropertyDerived s ts p rest
  keyed : ∀ {s t key ts p rest}, t.token.key? (s.location t.span) = some key →
    parseKeyed s n t.span key ts = .ok (p, rest) → PropertyDerived s (t :: ts) p rest
  pieces : ∀ {s base ps parts}, parsePieces s base n ps = .ok parts → PartsDerived s base ps parts

namespace Derives

theorem zero : Derives 0 where
  expr h := by rw [parseExpr] at h; cases h
  binary h := by rw [parseBinary] at h; cases h
  operators _ h := by rw [parseOperators] at h; cases h
  unary h := by rw [parseUnary] at h; cases h
  member h := by rw [parseMember] at h; cases h
  accesses _ h := by rw [parseAccesses] at h; cases h
  items h := by rw [parseItems] at h; cases h
  primary h := by rw [parsePrimary] at h; cases h
  properties h := by rw [parseProperties] at h; cases h
  property h := by rw [parseProperty] at h; cases h
  keyed _ h := by rw [parseKeyed] at h; cases h
  pieces h := by rw [parsePieces] at h; cases h

variable {n : Nat} (ih : Derives n) {s : Setting} {ts rest : List Lexeme} {e : Node}

include ih

theorem expr_succ (h : parseExpr s (n + 1) ts = .ok (e, rest)) : ExprDerived s ts e rest := by
  rw [parseExpr] at h
  obtain ⟨⟨test, behind⟩, htest, h₁⟩ := bind_eq_ok.1 h
  dsimp only at h₁
  split_ifs at h₁ with hquestion
  · obtain ⟨a, us, rfl⟩ := exists_of_startsWith hquestion
    obtain ⟨⟨x, behind⟩, hx, h₂⟩ := bind_eq_ok.1 h₁
    obtain ⟨⟨b, vs⟩, hcolon, h₃⟩ := bind_eq_ok.1 h₂
    obtain rfl := mark_eq_ok hcolon
    obtain ⟨⟨y, behind⟩, hy, h₄⟩ := bind_eq_ok.1 h₃
    obtain ⟨rfl, rfl⟩ := Prod.mk.inj (Except.ok.inj h₄)
    exact .conditional (ih.binary htest) (ih.expr hx) (ih.expr hy)
  · obtain ⟨rfl, rfl⟩ := Prod.mk.inj (Except.ok.inj h₁)
    exact ih.binary htest

theorem operators_succ {least : Nat} {all : List Lexeme} {left : Node}
    (hleft : ExprDerived s all left ts)
    (h : parseOperators s least (n + 1) left ts = .ok (e, rest)) : ExprDerived s all e rest := by
  cases ts with
  | nil =>
    obtain ⟨rfl, rfl⟩ := Prod.mk.inj (Except.ok.inj h)
    exact hleft
  | cons t ts =>
    rw [parseOperators] at h
    split at h
    · obtain ⟨rfl, rfl⟩ := Prod.mk.inj (Except.ok.inj h)
      exact hleft
    · rename_i b hb
      split_ifs at h
      · obtain ⟨rfl, rfl⟩ := Prod.mk.inj (Except.ok.inj h)
        exact hleft
      · obtain ⟨⟨right, behind⟩, hright, h₁⟩ := bind_eq_ok.1 h
        exact ih.operators (.operator hleft hb (ih.binary hright)) h₁

theorem unary_succ (h : parseUnary s (n + 1) ts = .ok (e, rest)) : ExprDerived s ts e rest := by
  cases ts with
  | nil =>
    rw [parseUnary] at h
    exact ih.member h
  | cons t ts =>
    rw [parseUnary] at h
    split at h
    · rename_i op hop
      obtain ⟨⟨argument, behind⟩, hargument, h₁⟩ := bind_eq_ok.1 h
      obtain ⟨rfl, rfl⟩ := Prod.mk.inj (Except.ok.inj h₁)
      exact .unary hop (ih.unary hargument)
    · exact ih.member h

theorem accesses_succ {all : List Lexeme} {object : Node} (hobject : ExprDerived s all object ts)
    (h : parseAccesses s (n + 1) object ts = .ok (e, rest)) : ExprDerived s all e rest := by
  generalize hfuel : n + 1 = fuel at h
  fun_cases parseAccesses s fuel object ts with
  | case1 => cases hfuel
  | case2 m object span => cases h
  | case3 m object span t rest name hname =>
    cases hfuel
    simp only [parseAccesses, hname] at h
    exact ih.accesses (.field hobject hname) h
  | case4 m object span t rest hname => simp [parseAccesses, hname] at h
  | case5 m object span ts =>
    cases hfuel
    rw [parseAccesses] at h
    obtain ⟨⟨index, behind⟩, hindex, h₁⟩ := bind_eq_ok.1 h
    obtain ⟨⟨close, ts⟩, hclose, h₂⟩ := bind_eq_ok.1 h₁
    obtain rfl := mark_eq_ok hclose
    exact ih.accesses (.index hobject (ih.expr hindex)) h₂
  | case6 m object span ts =>
    cases hfuel
    rw [parseAccesses] at h
    obtain ⟨⟨arguments, behind⟩, harguments, h₁⟩ := bind_eq_ok.1 h
    obtain ⟨⟨close, ts⟩, hclose, h₂⟩ := bind_eq_ok.1 h₁
    obtain rfl := mark_eq_ok hclose
    exact ih.accesses (.call hobject (ih.items harguments)) h₂
  | case7 =>
    cases hfuel
    simp only [parseAccesses] at h
    obtain ⟨rfl, rfl⟩ := Prod.mk.inj (Except.ok.inj h)
    exact hobject

theorem items_succ {close : Punct} {es : List Node}
    (h : parseItems s close (n + 1) ts = .ok (es, rest)) : ItemsDerived s ts es rest := by
  rw [parseItems] at h
  split_ifs at h
  · obtain ⟨rfl, rfl⟩ := Prod.mk.inj (Except.ok.inj h)
    exact .nil
  · obtain ⟨⟨item, behind⟩, hitem, h₁⟩ := bind_eq_ok.1 h
    dsimp only at h₁
    split_ifs at h₁ with hcomma
    · obtain ⟨a, us, rfl⟩ := exists_of_startsWith hcomma
      obtain ⟨⟨items, behind⟩, hitems, h₂⟩ := bind_eq_ok.1 h₁
      obtain ⟨rfl, rfl⟩ := Prod.mk.inj (Except.ok.inj h₂)
      exact .more (ih.expr hitem) (ih.items hitems)
    · obtain ⟨rfl, rfl⟩ := Prod.mk.inj (Except.ok.inj h₁)
      exact .last (ih.expr hitem)

theorem primary_succ (h : parsePrimary s (n + 1) ts = .ok (e, rest)) : ExprDerived s ts e rest := by
  cases ts with
  | nil => cases h
  | cons t ts =>
    obtain ⟨token, span⟩ := t
    unfold parsePrimary at h
    dsimp only at h
    split at h
    · obtain ⟨rfl, rfl⟩ := Prod.mk.inj (Except.ok.inj h)
      exact .identifier
    · obtain ⟨rfl, rfl⟩ := Prod.mk.inj (Except.ok.inj h)
      exact .literal rfl
    · obtain ⟨rfl, rfl⟩ := Prod.mk.inj (Except.ok.inj h)
      exact .literal rfl
    · obtain ⟨rfl, rfl⟩ := Prod.mk.inj (Except.ok.inj h)
      exact .literal rfl
    · obtain ⟨rfl, rfl⟩ := Prod.mk.inj (Except.ok.inj h)
      exact .literal rfl
    · obtain ⟨rfl, rfl⟩ := Prod.mk.inj (Except.ok.inj h)
      exact .literal rfl
    · obtain ⟨⟨inner, behind⟩, hinner, h₁⟩ := bind_eq_ok.1 h
      obtain ⟨⟨close, ts⟩, hclose, h₂⟩ := bind_eq_ok.1 h₁
      obtain rfl := mark_eq_ok hclose
      obtain ⟨rfl, rfl⟩ := Prod.mk.inj (Except.ok.inj h₂)
      exact .parens (ih.expr hinner)
    · obtain ⟨⟨elements, behind⟩, helements, h₁⟩ := bind_eq_ok.1 h
      obtain ⟨⟨close, ts⟩, hclose, h₂⟩ := bind_eq_ok.1 h₁
      obtain rfl := mark_eq_ok hclose
      obtain ⟨rfl, rfl⟩ := Prod.mk.inj (Except.ok.inj h₂)
      exact .array (ih.items helements)
    · obtain ⟨⟨properties, behind⟩, hproperties, h₁⟩ := bind_eq_ok.1 h
      obtain ⟨⟨close, ts⟩, hclose, h₂⟩ := bind_eq_ok.1 h₁
      obtain rfl := mark_eq_ok hclose
      obtain ⟨rfl, rfl⟩ := Prod.mk.inj (Except.ok.inj h₂)
      exact .object (ih.properties hproperties)
    · obtain ⟨parts, hparts, h₁⟩ := bind_eq_ok.1 h
      obtain ⟨rfl, rfl⟩ := Prod.mk.inj (Except.ok.inj h₁)
      exact .template (ih.pieces hparts)
    · cases h

theorem properties_succ {ps : List Property}
    (h : parseProperties s (n + 1) ts = .ok (ps, rest)) : PropertiesDerived s ts ps rest := by
  rw [parseProperties] at h
  split_ifs at h
  · obtain ⟨rfl, rfl⟩ := Prod.mk.inj (Except.ok.inj h)
    exact .nil
  · obtain ⟨⟨property, behind⟩, hproperty, h₁⟩ := bind_eq_ok.1 h
    dsimp only at h₁
    split_ifs at h₁ with hcomma
    · obtain ⟨a, us, rfl⟩ := exists_of_startsWith hcomma
      obtain ⟨⟨properties, behind⟩, hproperties, h₂⟩ := bind_eq_ok.1 h₁
      obtain ⟨rfl, rfl⟩ := Prod.mk.inj (Except.ok.inj h₂)
      exact .more (ih.property hproperty) (ih.properties hproperties)
    · obtain ⟨rfl, rfl⟩ := Prod.mk.inj (Except.ok.inj h₁)
      exact .last (ih.property hproperty)

theorem property_succ {p : Property} (h : parseProperty s (n + 1) ts = .ok (p, rest)) :
    PropertyDerived s ts p rest := by
  cases ts with
  | nil => cases h
  | cons t ts =>
    obtain ⟨token, span⟩ := t
    unfold parseProperty at h
    dsimp only at h
    split at h
    · obtain ⟨⟨key, behind⟩, hkey, h₁⟩ := bind_eq_ok.1 h
      obtain ⟨⟨b, us⟩, hclose, h₂⟩ := bind_eq_ok.1 h₁
      obtain rfl := mark_eq_ok hclose
      obtain ⟨⟨c, us⟩, hcolon, h₃⟩ := bind_eq_ok.1 h₂
      obtain rfl := mark_eq_ok hcolon
      obtain ⟨⟨value, behind⟩, hvalue, h₄⟩ := bind_eq_ok.1 h₃
      obtain ⟨rfl, rfl⟩ := Prod.mk.inj (Except.ok.inj h₄)
      exact .computed (ih.expr hkey) (ih.expr hvalue)
    · rename_i name
      split_ifs at h
      · obtain ⟨rfl, rfl⟩ := Prod.mk.inj (Except.ok.inj h)
        exact .shorthand
      · exact ih.keyed (t := ⟨.ident name, span⟩) rfl h
    · rename_i text
      exact ih.keyed (t := ⟨.string text, span⟩) rfl h
    · rename_i value
      exact ih.keyed (t := ⟨.number value, span⟩) rfl h
    · rename_i word
      exact ih.keyed (t := ⟨.keyword word, span⟩) rfl h
    · cases h

theorem keyed_succ {t : Lexeme} {key : Key} {p : Property}
    (hkey : t.token.key? (s.location t.span) = some key)
    (h : parseKeyed s (n + 1) t.span key ts = .ok (p, rest)) :
    PropertyDerived s (t :: ts) p rest := by
  rw [parseKeyed] at h
  obtain ⟨⟨a, us⟩, hcolon, h₁⟩ := bind_eq_ok.1 h
  obtain rfl := mark_eq_ok hcolon
  obtain ⟨⟨value, behind⟩, hvalue, h₂⟩ := bind_eq_ok.1 h₁
  obtain ⟨rfl, rfl⟩ := Prod.mk.inj (Except.ok.inj h₂)
  exact .keyed hkey (ih.expr hvalue)

theorem pieces_succ {base : Nat} {ps : List Piece} {parts : List Node}
    (h : parsePieces s base (n + 1) ps = .ok parts) : PartsDerived s base ps parts := by
  match ps with
  | [] =>
    obtain rfl := Except.ok.inj h
    exact .nil
  | .text offset chars :: ps =>
    rw [parsePieces] at h
    split_ifs at h with hempty
    · obtain rfl := List.isEmpty_iff.1 hempty
      exact .empty (ih.pieces h)
    · obtain ⟨parts, hparts, h₁⟩ := bind_eq_ok.1 h
      obtain rfl := Except.ok.inj h₁
      exact .text (fun hnil => hempty (List.isEmpty_iff.2 hnil)) (ih.pieces hparts)
  | .code offset chars :: ps =>
    rw [parsePieces] at h
    obtain ⟨ts, hts, h₁⟩ := bind_eq_ok.1 h
    obtain ⟨⟨part, rest⟩, hpart, h₂⟩ := bind_eq_ok.1 h₁
    obtain ⟨_, hfinished, h₃⟩ := bind_eq_ok.1 h₂
    obtain ⟨parts, hparts, h₄⟩ := bind_eq_ok.1 h₃
    obtain rfl := Except.ok.inj h₄
    cases rest with
    | nil => exact .code (mapError_eq_ok.1 hts) (ih.expr hpart) (ih.pieces hparts)
    | cons t rest => cases hfinished

theorem succ : Derives (n + 1) where
  expr h := ih.expr_succ h
  binary h := by
    rw [parseBinary] at h
    obtain ⟨⟨left, behind⟩, hleft, h₁⟩ := bind_eq_ok.1 h
    exact ih.operators (ih.unary hleft) h₁
  operators hleft h := ih.operators_succ hleft h
  unary h := ih.unary_succ h
  member h := by
    rw [parseMember] at h
    obtain ⟨⟨object, behind⟩, hobject, h₁⟩ := bind_eq_ok.1 h
    exact ih.accesses (ih.primary hobject) h₁
  accesses hobject h := ih.accesses_succ hobject h
  items h := ih.items_succ h
  primary h := ih.primary_succ h
  properties h := ih.properties_succ h
  property h := ih.property_succ h
  keyed hkey h := ih.keyed_succ hkey h
  pieces h := ih.pieces_succ h

omit ih in
theorem all (n : Nat) : Derives n := by
  induction n with
  | zero => exact zero
  | succ n ih => exact ih.succ

end Derives

inductive FiltersDerived : Setting → List Lexeme → List Filter → List Lexeme → Prop where
  | nil {s ts} : FiltersDerived s ts [] ts
  | plain {s bar name span ts fs rest} : FiltersDerived s ts fs rest →
      FiltersDerived s (⟨.punct .pipe, bar⟩ :: ⟨.ident name, span⟩ :: ts)
        (⟨name, [], s.location ⟨bar.start, span.stop⟩⟩ :: fs) rest
  | called {s bar name span a ts es b us fs rest} :
      ItemsDerived s.inner ts es (⟨.punct .rparen, b⟩ :: us) → FiltersDerived s us fs rest →
      FiltersDerived s (⟨.punct .pipe, bar⟩ :: ⟨.ident name, span⟩ :: ⟨.punct .lparen, a⟩ :: ts)
        (⟨name, es, s.location ⟨bar.start, b.stop⟩⟩ :: fs) rest

theorem filtersDerived {s : Setting} {n : Nat} {ts rest : List Lexeme} {fs : List Filter}
    (h : parseFilters s n ts = .ok (fs, rest)) : FiltersDerived s ts fs rest := by
  induction n generalizing ts fs rest with
  | zero => cases h
  | succ n ih =>
    generalize hfuel : n + 1 = fuel at h
    fun_cases parseFilters s fuel ts with
    | case1 => cases hfuel
    | case2 m bar name span ts join hparen =>
      cases hfuel
      obtain ⟨a, ts, rfl⟩ := exists_of_startsWith hparen
      simp only [parseFilters, hparen, if_true, pure_eq_ok, ok_bind] at h
      obtain ⟨⟨arguments, behind⟩, harguments, h₁⟩ := bind_eq_ok.1 h
      obtain ⟨⟨close, us⟩, hclose, h₂⟩ := bind_eq_ok.1 h₁
      obtain rfl := mark_eq_ok hclose
      obtain ⟨⟨filters, behind⟩, hfilters, h₃⟩ := bind_eq_ok.1 h₂
      obtain ⟨rfl, rfl⟩ := Prod.mk.inj (Except.ok.inj h₃)
      exact .called ((Derives.all n).items harguments) (ih hfilters)
    | case3 m bar name span ts join hparen =>
      cases hfuel
      simp only [parseFilters, if_neg hparen, pure_eq_ok, ok_bind] at h
      obtain ⟨⟨filters, behind⟩, hfilters, h₁⟩ := bind_eq_ok.1 h
      obtain ⟨rfl, rfl⟩ := Prod.mk.inj (Except.ok.inj h₁)
      exact .plain (ih hfilters)
    | case4 m bar ts hname =>
      simp only [parseFilters] at h
      cases h
    | case5 m ts hbar =>
      simp only [parseFilters] at h
      obtain ⟨rfl, rfl⟩ := Prod.mk.inj (Except.ok.inj h)
      exact .nil

/-! ## Whole sources -/

theorem parseExpression_derived {source : String} {e : Node} (h : parseExpression source = .ok e) :
    ∃ ts, Lexed 0 source.toList ts ∧ ExprDerived (.whole true source) ts e [] := by
  obtain ⟨ts, hts, hexpr⟩ := runParser_eq_ok h
  exact ⟨ts, hts, (Derives.all _).expr hexpr⟩

theorem parse_derived {source : String} {p : Piped} (h : parse source = .ok p) :
    ∃ ts us, Lexed 0 source.toList ts ∧ ExprDerived (.whole false source) ts p.expression us ∧
      FiltersDerived (.whole false source) us p.filters [] ∧
      p.location = (Setting.whole false source).location ⟨p.expression.span.start,
        (p.filters.getLast?.map (·.location.stop.offset)).getD p.expression.span.stop⟩ := by
  obtain ⟨ts, hts, hpiped⟩ := runParser_eq_ok h
  obtain ⟨⟨e, us⟩, he, h₁⟩ := bind_eq_ok.1 hpiped
  obtain ⟨⟨fs, rest⟩, hfs, h₂⟩ := bind_eq_ok.1 h₁
  obtain ⟨rfl, rfl⟩ := Prod.mk.inj (Except.ok.inj h₂)
  exact ⟨ts, us, hts, (Derives.all _).expr he, filtersDerived hfs, rfl⟩

end VueToSan.Expr
