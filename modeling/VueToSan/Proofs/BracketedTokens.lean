import VueToSan.Proofs.Derivations

/-!
# Bracketed tokens

The tokens of an expression are bracketed: each bracket has one of its own kind, and what stands
between the two is bracketed again. What brackets do to a count or a stack along a token list is
proved by induction on this structure.
-/

namespace VueToSan.Expr

inductive Bracket where
  | round | square | curly
deriving DecidableEq, Repr

namespace Bracket

def opening : Bracket → Punct
  | round => .lparen
  | square => .lbracket
  | curly => .lbrace

def closing : Bracket → Punct
  | round => .rparen
  | square => .rbracket
  | curly => .rbrace

end Bracket

/-- Tokens in which brackets come in pairs. A bar outside of them stands where bars are
operators. -/
inductive Bracketed : Bool → List Lexeme → Prop where
  | nil {nested : Bool} : Bracketed nested []
  | token {nested : Bool} {t : Lexeme} {ts : List Lexeme} :
      t.token.depth? nested 0 = some 0 → Bracketed nested ts → Bracketed nested (t :: ts)
  | enclosed {nested : Bool} (b : Bracket) {o c : Span} {ts us : List Lexeme} :
      Bracketed true ts → Bracketed nested us →
      Bracketed nested (⟨.punct b.opening, o⟩ :: (ts ++ ⟨.punct b.closing, c⟩ :: us))

theorem Bracketed.append {nested : Bool} {ts us : List Lexeme} (hts : Bracketed nested ts)
    (hus : Bracketed nested us) : Bracketed nested (ts ++ us) := by
  induction hts with
  | nil => exact hus
  | token ht _ ih => exact .token ht (ih hus)
  | enclosed b hinner _ _ ih =>
    rw [List.cons_append, List.append_assoc]
    exact .enclosed b hinner (ih hus)

theorem depth?_of_literal? {t : Token} {value : Literal} (h : t.literal? = some value)
    (nested : Bool) : t.depth? nested 0 = some 0 := by
  unfold Token.literal? at h
  split at h <;> first | rfl | cases h

theorem depth?_of_key? {t : Token} {location : Location} {key : Key}
    (h : t.key? location = some key) (nested : Bool) : t.depth? nested 0 = some 0 := by
  unfold Token.key? at h
  split at h <;> first | rfl | cases h

def Between (nested : Bool) (ts rest : List Lexeme) : Prop :=
  ∃ used, ts = used ++ rest ∧ Bracketed nested used

namespace Between

variable {nested : Bool} {ts us rest : List Lexeme}

theorem refl (nested : Bool) (ts : List Lexeme) : Between nested ts ts := ⟨[], rfl, .nil⟩

theorem trans (h : Between nested ts us) (h' : Between nested us rest) :
    Between nested ts rest := by
  obtain ⟨xs, rfl, hxs⟩ := h
  obtain ⟨ys, rfl, hys⟩ := h'
  exact ⟨xs ++ ys, (List.append_assoc xs ys rest).symm, hxs.append hys⟩

theorem token {t : Lexeme} (h : t.token.depth? nested 0 = some 0) : Between nested (t :: ts) ts :=
  ⟨[t], rfl, .token h .nil⟩

theorem enclosed (b : Bracket) {o c : Span}
    (h : Between true ts (⟨.punct b.closing, c⟩ :: rest)) :
    Between nested (⟨.punct b.opening, o⟩ :: ts) rest := by
  obtain ⟨xs, rfl, hxs⟩ := h
  exact ⟨⟨.punct b.opening, o⟩ :: (xs ++ [⟨.punct b.closing, c⟩]), by simp, .enclosed b hxs .nil⟩

theorem round {a b : Span} (h : Between true ts (⟨.punct .rparen, b⟩ :: rest)) :
    Between nested (⟨.punct .lparen, a⟩ :: ts) rest :=
  h.enclosed .round

theorem square {a b : Span} (h : Between true ts (⟨.punct .rbracket, b⟩ :: rest)) :
    Between nested (⟨.punct .lbracket, a⟩ :: ts) rest :=
  h.enclosed .square

theorem curly {a b : Span} (h : Between true ts (⟨.punct .rbrace, b⟩ :: rest)) :
    Between nested (⟨.punct .lbrace, a⟩ :: ts) rest :=
  h.enclosed .curly

end Between

mutual

theorem ExprDerived.between {s : Setting} {ts rest : List Lexeme} {e : Node} :
    ExprDerived s ts e rest → Between s.nested ts rest
  | .identifier => .token rfl
  | .literal h => .token (depth?_of_literal? h _)
  | .parens h => h.between.round
  | .array h => h.between.square
  | .object h => (h.between rfl).curly
  | .template _ => .token rfl
  | .field h hname =>
    h.between.trans ((Between.token rfl).trans (.token (depth?_of_memberName? hname _)))
  | .index h h' => h.between.trans h'.between.square
  | .call h h' => h.between.trans h'.between.round
  | .unary h h' => (Between.token (depth?_of_unaryOp? h _)).trans h'.between
  | .operator h hb h' => h.between.trans ((Between.token (depth?_of_binding? hb)).trans h'.between)
  | .conditional h h' h'' =>
    h.between.trans ((Between.token rfl).trans
      (h'.between.trans ((Between.token rfl).trans h''.between)))

theorem ItemsDerived.between {s : Setting} {ts rest : List Lexeme} {es : List Node} :
    ItemsDerived s ts es rest → Between s.nested ts rest
  | .nil => .refl _ _
  | .last h => h.between
  | .more h h' => h.between.trans ((Between.token rfl).trans h'.between)

theorem PropertiesDerived.between {s : Setting} {ts rest : List Lexeme} {ps : List Property} :
    PropertiesDerived s ts ps rest → s.nested = true → Between true ts rest
  | .nil, _ => .refl _ _
  | .last h, hnested => h.between hnested
  | .more h h', hnested =>
    (h.between hnested).trans ((Between.token rfl).trans (h'.between hnested))

theorem PropertyDerived.between {s : Setting} {ts rest : List Lexeme} {p : Property} :
    PropertyDerived s ts p rest → s.nested = true → Between true ts rest
  | .shorthand, _ => .token rfl
  | .keyed h h', hnested =>
    (Between.token (depth?_of_key? h _)).trans ((Between.token rfl).trans (hnested ▸ h'.between))
  | .computed h h', hnested =>
    Between.trans (.square (hnested ▸ h.between)) ((Between.token rfl).trans (hnested ▸ h'.between))

end

end VueToSan.Expr
