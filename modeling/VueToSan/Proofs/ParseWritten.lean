import VueToSan.Proofs.Results
import VueToSan.Proofs.Written

/-!
# Parsing written expressions

Every parsing function gives back the expression that a token list writes, up to locations, when
the tokens behind the list do not continue it. A function that reads operators or accesses in a loop
arrives, behind the tokens of its first operand, at the loop with that operand.

Fuel is counted in tokens: eight for each token are enough.
-/

namespace VueToSan.Expr

attribute [local simp] parseExpr parseBinary parseOperators parseUnary parseMember parseAccesses
  parseItems parsePrimary parseProperties parseProperty parseKeyed

/-! ## The table of binding powers -/

theorem binding?_token {op : Infix} {nested : Bool} (h : nested = true ∨ op ≠ .binary .bitOr) :
    op.token.binding? nested = some ⟨op, op.left, op.right⟩ := by
  rcases op with op | op <;> cases op <;> cases nested <;> first | rfl | simp at h

theorem unaryOp?_token (op : UnaryOp) : op.token.unaryOp? = some op := by
  cases op <;> rfl

def Infix.all : List Infix := BinaryOp.all.map .binary ++ LogicalOp.all.map .logical

theorem Infix.mem_all (op : Infix) : op ∈ Infix.all := by
  rcases op with op | op <;> cases op <;> decide

/-- An operator that may follow on the right of `b` without parentheses around `b` binds `b` no
more strongly than `b` binds what stands on its left. -/
theorem Infix.left_le_left {a b : Infix} (h : a.left < b.right) : a.left ≤ b.left := by
  have key : ∀ a ∈ Infix.all, ∀ b ∈ Infix.all, a.left < b.right → a.left ≤ b.left := by decide
  exact key a a.mem_all b b.mem_all h

theorem Infix.right_le_right {a b : Infix} (h : a.right ≤ b.left) : a.right ≤ b.right := by
  have key : ∀ a ∈ Infix.all, ∀ b ∈ Infix.all, a.right ≤ b.left → a.right ≤ b.right := by decide
  exact key a a.mem_all b b.mem_all h

/-! ## What may stand behind an expression -/

def Token.opensAccess : Token → Bool
  | .punct .dot | .punct .lbracket | .punct .lparen => true
  | _ => false

/-- The tokens do not go on with an access, nor with an operator that binds to the left with a power
of `bound` or more. -/
def Ends (nested : Bool) (bound : Nat) : List Lexeme → Prop
  | [] => True
  | t :: _ => t.token.opensAccess = false ∧
      ∀ b, t.token.binding? nested = some b → b.left < bound

theorem Ends.mono {nested : Bool} {m n : Nat} {ts : List Lexeme} (h : Ends nested m ts)
    (hmn : m ≤ n) : Ends nested n ts := by
  cases ts with
  | nil => trivial
  | cons t ts => exact ⟨h.1, fun b hb => Nat.lt_of_lt_of_le (h.2 b hb) hmn⟩

theorem startsWith_punct (p q : Punct) (span : Span) (ts : List Lexeme) :
    startsWith p (⟨.punct q, span⟩ :: ts) = (p == q) := rfl

theorem ends_punct {nested : Bool} {p : Punct} {span : Span} {ts : List Lexeme}
    (h : p ∈ [Punct.rparen, .rbracket, .rbrace, .comma, .colon, .question]) :
    Ends nested 0 (⟨.punct p, span⟩ :: ts) := by
  simp only [List.mem_cons, List.not_mem_nil, or_false] at h
  rcases h with rfl | rfl | rfl | rfl | rfl | rfl <;>
    exact ⟨rfl, fun b hb => by simp [Token.binding?] at hb⟩

theorem ends_operator {nested : Bool} {op : Infix} {span : Span} {ts : List Lexeme}
    (h : nested = true ∨ op ≠ .binary .bitOr) :
    Ends nested (op.left + 1) (⟨op.token, span⟩ :: ts) := by
  refine ⟨?_, fun b hb => ?_⟩
  · rcases op with op | op <;> cases op <;> rfl
  · rw [binding?_token h] at hb
    cases hb
    exact Nat.lt_succ_self _

variable {s : Setting}

theorem parseAccesses_ends {bound n : Nat} {e : Node} {rest : List Lexeme}
    (h : Ends s.nested bound rest) (hn : 0 < n) : parseAccesses s n e rest = .ok (e, rest) := by
  obtain ⟨n, rfl⟩ : ∃ m, n = m + 1 := ⟨n - 1, by omega⟩
  cases rest with
  | nil => rfl
  | cons t ts =>
    obtain ⟨token, span⟩ := t
    have ho := h.1
    unfold parseAccesses
    split <;> simp_all [Token.opensAccess]

theorem parseOperators_ends {least bound n : Nat} {e : Node} {rest : List Lexeme}
    (h : Ends s.nested bound rest) (hb : bound ≤ least) (hn : 0 < n) :
    parseOperators s least n e rest = .ok (e, rest) := by
  obtain ⟨n, rfl⟩ : ∃ m, n = m + 1 := ⟨n - 1, by omega⟩
  cases rest with
  | nil => rfl
  | cons t ts =>
    simp only [parseOperators]
    cases hbind : t.token.binding? s.nested with
    | none => rfl
    | some b =>
      have hlt : b.left < least := Nat.lt_of_lt_of_le (h.2 b hbind) hb
      simp [hlt]

/-! ## Tokens with spans -/

section Lexemes

variable {t u : Token} {front back : List Token} {ts : List Lexeme}

theorem exists_firstLexeme (h : ts.map (·.token) = t :: back) :
    ∃ span us, ts = ⟨t, span⟩ :: us ∧ us.map (·.token) = back := by
  obtain ⟨⟨_, span⟩, us, rfl, rfl, hus⟩ := List.map_eq_cons_iff.1 h
  exact ⟨span, us, rfl, hus⟩

theorem exists_onlyLexeme (h : ts.map (·.token) = [t]) : ∃ span, ts = [⟨t, span⟩] := by
  obtain ⟨⟨_, span⟩, rfl, rfl⟩ := List.map_eq_singleton_iff.1 h
  exact ⟨span, rfl⟩

theorem exists_lexemeBehind (h : ts.map (·.token) = front ++ t :: back) :
    ∃ us span vs, ts = us ++ ⟨t, span⟩ :: vs ∧ us.map (·.token) = front ∧
      vs.map (·.token) = back := by
  obtain ⟨us, behind, rfl, hus, hbehind⟩ := List.map_eq_append_iff.1 h
  obtain ⟨span, vs, rfl, hvs⟩ := exists_firstLexeme hbehind
  exact ⟨us, span, vs, rfl, hus, hvs⟩

theorem exists_lastLexeme (h : ts.map (·.token) = front ++ [t]) :
    ∃ us span, ts = us ++ [⟨t, span⟩] ∧ us.map (·.token) = front := by
  obtain ⟨us, span, vs, rfl, hus, hvs⟩ := exists_lexemeBehind h
  obtain rfl := List.map_eq_nil_iff.1 hvs
  exact ⟨us, span, rfl, hus⟩

theorem exists_enclosedLexemes (h : ts.map (·.token) = t :: (front ++ [u])) :
    ∃ a us b, ts = ⟨t, a⟩ :: (us ++ [⟨u, b⟩]) ∧ us.map (·.token) = front := by
  obtain ⟨a, behind, rfl, hbehind⟩ := exists_firstLexeme h
  obtain ⟨us, b, rfl, hus⟩ := exists_lastLexeme hbehind
  exact ⟨a, us, b, rfl, hus⟩

end Lexemes

/-! ## What the functions give back -/

def Gives (x : Except Stop (Followed Node)) (e : Node) (rest : List Lexeme) : Prop :=
  ∃ e', e'.unlocated = e.unlocated ∧ x = .ok (e', rest)

/-- Reading a member expression arrives at the loop over accesses. -/
def ReadsPrimary (s : Setting) (e : Node) (ts : List Lexeme) : Prop :=
  ∀ rest n, 8 * ts.length ≤ n → ∃ e' k, e'.unlocated = e.unlocated ∧ k ≤ ts.length + 1 ∧
    parseUnary s n (ts ++ rest) = parseAccesses s (n - k) e' rest

def ReadsUnary (s : Setting) (e : Node) (ts : List Lexeme) : Prop :=
  ∀ rest n bound, Ends s.nested bound rest → 8 * ts.length ≤ n →
    Gives (parseUnary s n (ts ++ rest)) e rest

/-- Reading operands arrives at the loop over operators. The first `least` is the power that the
loop asks for, `bound` the power that the operators behind stay below. -/
def ReadsOperands (s : Setting) (least bound : Nat) (e : Node) (ts : List Lexeme) : Prop :=
  ∀ rest n, Ends s.nested bound rest → 8 * ts.length + 1 ≤ n →
    ∃ e' k, e'.unlocated = e.unlocated ∧ k ≤ ts.length + 1 ∧
      parseBinary s least n (ts ++ rest) = parseOperators s least (n - k) e' rest

def ReadsBinary (s : Setting) (least : Nat) (e : Node) (ts : List Lexeme) : Prop :=
  ∀ rest n, Ends s.nested least rest → 8 * ts.length + 1 ≤ n →
    Gives (parseBinary s least n (ts ++ rest)) e rest

def ReadsExpr (s : Setting) (e : Node) (ts : List Lexeme) : Prop :=
  ∀ rest n, Ends s.nested 0 rest → startsWith .question rest = false → 8 * ts.length + 2 ≤ n →
    Gives (parseExpr s n (ts ++ rest)) e rest

theorem ReadsPrimary.unary {e : Node} {ts : List Lexeme} (h : ReadsPrimary s e ts)
    (hts : ts ≠ []) : ReadsUnary s e ts := by
  intro rest n bound hend hn
  have hpos : 0 < ts.length := List.length_pos_iff.2 hts
  obtain ⟨e', k, he, hk, hrun⟩ := h rest n hn
  refine ⟨e', he, ?_⟩
  rw [hrun, parseAccesses_ends hend (by omega)]

theorem ReadsUnary.operands {e : Node} {ts : List Lexeme} (h : ReadsUnary s e ts)
    (least bound : Nat) : ReadsOperands s least bound e ts := by
  intro rest n hend hn
  obtain ⟨n, rfl⟩ : ∃ m, n = m + 1 := ⟨n - 1, by omega⟩
  obtain ⟨e', he, hrun⟩ := h rest n bound hend (by omega)
  exact ⟨e', 1, he, by omega, by simp [hrun]⟩

theorem ReadsOperands.binary {least : Nat} {e : Node} {ts : List Lexeme}
    (h : ReadsOperands s least least e ts) (hts : ts ≠ []) : ReadsBinary s least e ts := by
  intro rest n hend hn
  have hpos : 0 < ts.length := List.length_pos_iff.2 hts
  obtain ⟨e', k, he, hk, hrun⟩ := h rest n hend hn
  refine ⟨e', he, ?_⟩
  rw [hrun, parseOperators_ends hend (Nat.le_refl _) (by omega)]

theorem ReadsBinary.expr {e : Node} {ts : List Lexeme} (h : ReadsBinary s 0 e ts) :
    ReadsExpr s e ts := by
  intro rest n hend hq hn
  obtain ⟨n, rfl⟩ : ∃ m, n = m + 1 := ⟨n - 1, by omega⟩
  obtain ⟨e', he, hrun⟩ := h rest n hend (by omega)
  exact ⟨e', he, by simp [hrun, hq]⟩

/-! ## One statement for each kind of node -/

theorem readsPrimary_identifier (n : Name) (span : Span) :
    ReadsPrimary s (.identifier n) [⟨.ident n.text, span⟩] := by
  intro rest m hm
  obtain ⟨m, rfl⟩ : ∃ k, m = k + 3 := ⟨m - 3, by simp at hm; omega⟩
  exact ⟨.identifier ⟨s.location span, n.text⟩, 2, rfl, by simp,
    by simp [Token.unaryOp?]⟩

theorem readsPrimary_literal (l : Location) (v : Literal) (span : Span) :
    ReadsPrimary s (.literal l v) [⟨v.token, span⟩] := by
  intro rest m hm
  obtain ⟨m, rfl⟩ : ∃ k, m = k + 3 := ⟨m - 3, by simp at hm; omega⟩
  refine ⟨.literal (s.location span) v, 2, rfl, by simp, ?_⟩
  rcases v with x | x | (_ | _) | _ <;>
    simp [Literal.token, Token.unaryOp?]

theorem mark_punct (p : Punct) (span : Span) (rest : List Lexeme) :
    s.mark p (⟨.punct p, span⟩ :: rest) = .ok (span, rest) := by
  simp [Setting.mark]

theorem readsPrimary_parens {e : Node} {ts : List Lexeme} (h : ReadsExpr s.inner e ts)
    (a b : Span) :
    ReadsPrimary s e (⟨.punct .lparen, a⟩ :: (ts ++ [⟨.punct .rparen, b⟩])) := by
  intro rest n hn
  simp only [List.length_cons, List.length_append, List.length_nil] at hn ⊢
  obtain ⟨n, rfl⟩ : ∃ m, n = m + 3 := ⟨n - 3, by omega⟩
  obtain ⟨e', he, hrun⟩ := h (⟨.punct .rparen, b⟩ :: rest) n (ends_punct (by decide)) rfl (by omega)
  refine ⟨e', 2, he, by omega, ?_⟩
  simp [Token.unaryOp?, hrun, mark_punct]

def ReadsItems (s : Setting) (es : List Node) (ts : List Lexeme) : Prop :=
  ∀ close ∈ [Punct.rparen, .rbracket], ∀ span rest n, 8 * ts.length + 3 ≤ n →
    ∃ es', unlocatedList es' = unlocatedList es ∧
      parseItems s close n (ts ++ ⟨.punct close, span⟩ :: rest) =
        .ok (es', ⟨.punct close, span⟩ :: rest)

def ReadsProperty (s : Setting) (p : Property) (ts : List Lexeme) : Prop :=
  ∀ next ∈ [Punct.comma, .rbrace], ∀ span rest n, 8 * ts.length ≤ n →
    ∃ p' : Property, p'.unlocated = p.unlocated ∧
      parseProperty s n (ts ++ ⟨.punct next, span⟩ :: rest) =
        .ok (p', ⟨.punct next, span⟩ :: rest)

def ReadsProperties (s : Setting) (ps : List Property) (ts : List Lexeme) : Prop :=
  ∀ span rest n, 8 * ts.length + 3 ≤ n →
    ∃ ps', unlocatedProperties ps' = unlocatedProperties ps ∧
      parseProperties s n (ts ++ ⟨.punct .rbrace, span⟩ :: rest) =
        .ok (ps', ⟨.punct .rbrace, span⟩ :: rest)

theorem readsPrimary_array {es : List Node} {ts : List Lexeme} (h : ReadsItems s.inner es ts)
    (l : Location) (a b : Span) :
    ReadsPrimary s (.array l es) (⟨.punct .lbracket, a⟩ :: (ts ++ [⟨.punct .rbracket, b⟩])) := by
  intro rest n hn
  simp only [List.length_cons, List.length_append, List.length_nil] at hn ⊢
  obtain ⟨n, rfl⟩ : ∃ m, n = m + 3 := ⟨n - 3, by omega⟩
  obtain ⟨es', hes, hrun⟩ := h .rbracket (by decide) b rest n (by omega)
  refine ⟨.array (s.location (a.merge b)) es', 2, by simp [Node.unlocated, hes], by omega, ?_⟩
  simp [Token.unaryOp?, hrun, mark_punct]

theorem readsPrimary_object {ps : List Property} {ts : List Lexeme}
    (h : ReadsProperties s.inner ps ts) (l : Location) (a b : Span) :
    ReadsPrimary s (.object l ps) (⟨.punct .lbrace, a⟩ :: (ts ++ [⟨.punct .rbrace, b⟩])) := by
  intro rest n hn
  simp only [List.length_cons, List.length_append, List.length_nil] at hn ⊢
  obtain ⟨n, rfl⟩ : ∃ m, n = m + 3 := ⟨n - 3, by omega⟩
  obtain ⟨ps', hps, hrun⟩ := h b rest n (by omega)
  refine ⟨.object (s.location (a.merge b)) ps', 2, by simp [Node.unlocated, hps], by omega, ?_⟩
  simp [Token.unaryOp?, hrun, mark_punct]

theorem readsPrimary_field {o : Node} {ts : List Lexeme} (h : ReadsPrimary s o ts) (hts : ts ≠ [])
    (l : Location) {n : Name} {t : Lexeme} (ht : t.token.memberName? = some n.text) (a : Span) :
    ReadsPrimary s (.field l o n) (ts ++ [⟨.punct .dot, a⟩, t]) := by
  intro rest m hm
  have hpos : 0 < ts.length := List.length_pos_iff.2 hts
  simp only [List.length_cons, List.length_append, List.length_nil] at hm ⊢
  obtain ⟨o', k, ho, hk, hrun⟩ := h (⟨.punct .dot, a⟩ :: t :: rest) m (by omega)
  obtain ⟨q, hq⟩ : ∃ q, m - k = q + 1 := ⟨m - k - 1, by omega⟩
  refine ⟨.field (s.location (o'.span.merge t.span)) o' ⟨s.location t.span, n.text⟩, k + 1,
    by simp [Node.unlocated, ho, Name.unlocated], by omega, ?_⟩
  rw [List.append_assoc, List.cons_append, List.cons_append, List.nil_append, hrun, hq,
    show m - (k + 1) = q by omega]
  simp [ht]

theorem readsPrimary_index {o i : Node} {ts us : List Lexeme} (h : ReadsPrimary s o ts)
    (hts : ts ≠ []) (hi : ReadsExpr s.inner i us) (l : Location) (a b : Span) :
    ReadsPrimary s (.index l o i)
      (ts ++ ⟨.punct .lbracket, a⟩ :: (us ++ [⟨.punct .rbracket, b⟩])) := by
  intro rest m hm
  have hpos : 0 < ts.length := List.length_pos_iff.2 hts
  simp only [List.length_cons, List.length_append, List.length_nil] at hm ⊢
  obtain ⟨o', k, ho, hk, hrun⟩ :=
    h (⟨.punct .lbracket, a⟩ :: (us ++ ⟨.punct .rbracket, b⟩ :: rest)) m (by omega)
  obtain ⟨q, hq⟩ : ∃ q, m - k = q + 1 := ⟨m - k - 1, by omega⟩
  obtain ⟨i', hi', hirun⟩ :=
    hi (⟨.punct .rbracket, b⟩ :: rest) q (ends_punct (by decide)) rfl (by omega)
  refine ⟨.index (s.location (o'.span.merge b)) o' i', k + 1,
    by simp [Node.unlocated, ho, hi'], by omega, ?_⟩
  rw [List.append_assoc, List.cons_append, List.append_assoc, List.cons_append, List.nil_append,
    hrun, hq, show m - (k + 1) = q by omega]
  simp [hirun, mark_punct]

theorem readsPrimary_call {f : Node} {args : List Node} {ts us : List Lexeme}
    (h : ReadsPrimary s f ts) (hts : ts ≠ []) (hargs : ReadsItems s.inner args us) (l : Location)
    (a b : Span) :
    ReadsPrimary s (.call l f args)
      (ts ++ ⟨.punct .lparen, a⟩ :: (us ++ [⟨.punct .rparen, b⟩])) := by
  intro rest m hm
  have hpos : 0 < ts.length := List.length_pos_iff.2 hts
  simp only [List.length_cons, List.length_append, List.length_nil] at hm ⊢
  obtain ⟨f', k, hf, hk, hrun⟩ :=
    h (⟨.punct .lparen, a⟩ :: (us ++ ⟨.punct .rparen, b⟩ :: rest)) m (by omega)
  obtain ⟨q, hq⟩ : ∃ q, m - k = q + 1 := ⟨m - k - 1, by omega⟩
  obtain ⟨args', hargs', hrunArgs⟩ := hargs .rparen (by decide) b rest q (by omega)
  refine ⟨.call (s.location (f'.span.merge b)) f' args', k + 1,
    by simp [Node.unlocated, hf, hargs'], by omega, ?_⟩
  rw [List.append_assoc, List.cons_append, List.append_assoc, List.cons_append, List.nil_append,
    hrun, hq, show m - (k + 1) = q by omega]
  simp [hrunArgs, mark_punct]

theorem readsUnary_unary {a : Node} {ts : List Lexeme} (h : ReadsUnary s a ts) (l : Location)
    (op : UnaryOp) (span : Span) : ReadsUnary s (.unary l op a) (⟨op.token, span⟩ :: ts) := by
  intro rest n bound hend hn
  simp only [List.length_cons] at hn
  obtain ⟨n, rfl⟩ : ∃ m, n = m + 1 := ⟨n - 1, by omega⟩
  obtain ⟨a', ha, hrun⟩ := h rest n bound hend (by omega)
  exact ⟨.unary (s.location (span.merge a'.span)) op a', by simp [Node.unlocated, ha],
    by simp [unaryOp?_token, hrun]⟩

theorem node_unlocated (op : Infix) (l : Location) (a b : Node) :
    (op.node l a b).unlocated = op.node default a.unlocated b.unlocated := by
  cases op <;> rfl

/-- Behind the left operand the loop meets the operator, reads the right operand up to the operators
that bind less, and goes on with the joined tree. -/
theorem readsOperands_joined {op : Infix} {least : Nat} {a b : Node} {ts us : List Lexeme}
    (hop : s.nested = true ∨ op ≠ .binary .bitOr) (hleast : least ≤ op.left)
    (ha : ReadsOperands s least (op.left + 1) a ts) (hb : ReadsBinary s op.right b us)
    (l : Location) (span : Span) :
    ReadsOperands s least op.right (op.node l a b) (ts ++ ⟨op.token, span⟩ :: us) := by
  intro rest n hend hn
  simp only [List.length_cons, List.length_append] at hn ⊢
  obtain ⟨a', k, ha', hk, hrun⟩ := ha (⟨op.token, span⟩ :: (us ++ rest)) n (ends_operator hop)
    (by omega)
  obtain ⟨q, hq⟩ : ∃ q, n - k = q + 1 := ⟨n - k - 1, by omega⟩
  obtain ⟨b', hb', hrunb⟩ := hb rest q hend (by omega)
  refine ⟨op.node (s.location (a'.span.merge b'.span)) a' b', k + 1,
    by rw [node_unlocated, node_unlocated, ha', hb'], by omega, ?_⟩
  rw [List.append_assoc, List.cons_append, hrun, hq, show n - (k + 1) = q by omega]
  have hlt : ¬ op.left < least := by omega
  simp [binding?_token hop, hlt, hrunb]

theorem readsExpr_conditional {t x y : Node} {ts us vs : List Lexeme} (ht : ReadsBinary s 0 t ts)
    (hx : ReadsExpr s x us) (hy : ReadsExpr s y vs) (l : Location) (a b : Span) :
    ReadsExpr s (.conditional l t x y)
      (ts ++ ⟨.punct .question, a⟩ :: (us ++ ⟨.punct .colon, b⟩ :: vs)) := by
  intro rest n hend hq hn
  simp only [List.length_cons, List.length_append] at hn
  obtain ⟨n, rfl⟩ : ∃ m, n = m + 1 := ⟨n - 1, by omega⟩
  obtain ⟨t', ht', hrunt⟩ :=
    ht (⟨.punct .question, a⟩ :: (us ++ ⟨.punct .colon, b⟩ :: (vs ++ rest))) n
      (ends_punct (by decide)) (by omega)
  obtain ⟨x', hx', hrunx⟩ :=
    hx (⟨.punct .colon, b⟩ :: (vs ++ rest)) n (ends_punct (by decide)) rfl (by omega)
  obtain ⟨y', hy', hruny⟩ := hy rest n hend hq (by omega)
  refine ⟨.conditional (s.location (t'.span.merge y'.span)) t' x' y',
    by simp [Node.unlocated, ht', hx', hy'], ?_⟩
  simp [hrunt, startsWith_punct, hrunx, hruny, mark_punct]

/-! ## Lists of items and properties -/

def Opens : List Lexeme → Prop
  | [] => False
  | t :: _ => ∀ p ∈ [Punct.rparen, .rbracket, .rbrace], startsWith p [t] = false

theorem Opens.startsWith {ts : List Lexeme} (h : Opens ts) (rest : List Lexeme) {p : Punct}
    (hp : p ∈ [Punct.rparen, .rbracket, .rbrace]) : startsWith p (ts ++ rest) = false := by
  cases ts with
  | nil => exact h.elim
  | cons t ts =>
    have hfirst := h p hp
    obtain ⟨token, span⟩ := t
    cases token <;> first | rfl | exact hfirst

theorem Opens.ne_nil {ts : List Lexeme} (h : Opens ts) : ts ≠ [] := by
  rintro rfl
  exact h

theorem mem_closing (nested : Bool) {close : Punct} (h : close ∈ [Punct.rparen, .rbracket])
    (span : Span) (rest : List Lexeme) :
    close ∈ [Punct.rparen, .rbracket, .rbrace] ∧ close ≠ .comma ∧
      Ends nested 0 (⟨.punct close, span⟩ :: rest) ∧
      startsWith .question (⟨.punct close, span⟩ :: rest) = false := by
  simp only [List.mem_cons, List.not_mem_nil, or_false] at h
  rcases h with rfl | rfl <;> exact ⟨by decide, by decide, ends_punct (by decide), rfl⟩

theorem readsItems_nil : ReadsItems s [] [] := by
  intro close _ span rest n hn
  obtain ⟨n, rfl⟩ : ∃ m, n = m + 1 := ⟨n - 1, by simp at hn; omega⟩
  exact ⟨[], rfl, by simp [startsWith_punct]⟩

theorem readsItems_last {e : Node} {ts : List Lexeme} (h : ReadsExpr s e ts) (ho : Opens ts) :
    ReadsItems s [e] ts := by
  intro close hclose span rest n hn
  obtain ⟨hmem, hcomma, hend, hq⟩ := mem_closing s.nested hclose span rest
  obtain ⟨n, rfl⟩ : ∃ m, n = m + 1 := ⟨n - 1, by omega⟩
  obtain ⟨e', he, hrun⟩ := h _ n hend hq (by omega)
  refine ⟨[e'], by simp [unlocatedList, he], ?_⟩
  simp [ho.startsWith _ hmem, hrun, startsWith_punct, hcomma.symm]

theorem readsItems_more {e : Node} {es : List Node} {ts us : List Lexeme} (h : ReadsExpr s e ts)
    (ho : Opens ts) (hes : ReadsItems s es us) (a : Span) :
    ReadsItems s (e :: es) (ts ++ ⟨.punct .comma, a⟩ :: us) := by
  intro close hclose span rest n hn
  simp only [List.length_cons, List.length_append] at hn
  obtain ⟨hmem, -⟩ := mem_closing s.nested hclose span rest
  obtain ⟨n, rfl⟩ : ∃ m, n = m + 1 := ⟨n - 1, by omega⟩
  obtain ⟨e', he, hrun⟩ :=
    h (⟨.punct .comma, a⟩ :: (us ++ ⟨.punct close, span⟩ :: rest)) n (ends_punct (by decide)) rfl
      (by omega)
  obtain ⟨es', hes', hruns⟩ := hes close hclose span rest n (by omega)
  refine ⟨e' :: es', by simp [unlocatedList, he, hes'], ?_⟩
  simp [ho.startsWith _ hmem, hrun, startsWith_punct, hruns]

theorem readsProperty_shorthand (n : Name) (a : Span) :
    ReadsProperty s (.shorthand n) [⟨.ident n.text, a⟩] := by
  intro next hnext span rest m hm
  obtain ⟨m, rfl⟩ : ∃ k, m = k + 1 := ⟨m - 1, by simp at hm; omega⟩
  refine ⟨.shorthand ⟨s.location a, n.text⟩, rfl, ?_⟩
  simp only [List.mem_cons, List.not_mem_nil, or_false] at hnext
  rcases hnext with rfl | rfl <;> simp [startsWith_punct]

theorem ends_next (nested : Bool) {next : Punct} (h : next ∈ [Punct.comma, .rbrace]) (span : Span)
    (rest : List Lexeme) : Ends nested 0 (⟨.punct next, span⟩ :: rest) ∧
      startsWith .question (⟨.punct next, span⟩ :: rest) = false := by
  simp only [List.mem_cons, List.not_mem_nil, or_false] at h
  rcases h with rfl | rfl <;> exact ⟨ends_punct (by decide), rfl⟩

theorem parseProperty_key {n : Nat} {k : Key} {t : Token} (h : k.WrittenBy t) (a b : Span)
    (ts : List Lexeme) :
    ∃ k' : Key, k'.unlocated = k.unlocated ∧
      parseProperty s (n + 1) (⟨t, a⟩ :: ⟨.punct .colon, b⟩ :: ts) =
        parseKeyed s n a k' (⟨.punct .colon, b⟩ :: ts) := by
  cases k with
  | name m =>
    refine ⟨.name ⟨s.location a, m.text⟩, rfl, ?_⟩
    cases t with
    | ident name =>
      obtain rfl : name = m.text := by simpa [Key.WrittenBy, Token.memberName?] using h
      simp [startsWith_punct]
    | keyword word =>
      have hw : word.text = m.text := by simpa [Key.WrittenBy, Token.memberName?] using h
      simp [hw]
    | number _ | string _ | template _ | punct _ => simp [Key.WrittenBy, Token.memberName?] at h
  | string l text =>
    obtain rfl : t = .string text := h
    exact ⟨.string (s.location a) text, rfl, by simp⟩
  | number l value =>
    obtain rfl : t = .number value := h
    exact ⟨.number (s.location a) value, rfl, by simp⟩

theorem readsProperty_keyed {k : Key} {v : Node} {t : Token} {ts : List Lexeme}
    (hk : k.WrittenBy t) (h : ReadsExpr s v ts) (l : Location) (a b : Span) :
    ReadsProperty s (.keyed l k v) (⟨t, a⟩ :: ⟨.punct .colon, b⟩ :: ts) := by
  intro next hnext span rest n hn
  simp only [List.length_cons] at hn
  obtain ⟨n, rfl⟩ : ∃ m, n = m + 2 := ⟨n - 2, by omega⟩
  obtain ⟨hend, hq⟩ := ends_next s.nested hnext span rest
  obtain ⟨v', hv, hrun⟩ := h _ n hend hq (by omega)
  obtain ⟨k', hk', hkey⟩ := parseProperty_key (s := s) (n := n + 1) hk a b
    (ts ++ ⟨.punct next, span⟩ :: rest)
  refine ⟨.keyed (s.location (a.merge v'.span)) k' v', by simp [Property.unlocated, hk', hv], ?_⟩
  rw [List.cons_append, List.cons_append, hkey]
  simp [mark_punct, hrun]

theorem readsProperty_computed {k v : Node} {ts us : List Lexeme} (hk : ReadsExpr s k ts)
    (hv : ReadsExpr s v us) (l : Location) (a b c : Span) :
    ReadsProperty s (.computed l k v)
      (⟨.punct .lbracket, a⟩ :: (ts ++ ⟨.punct .rbracket, b⟩ :: ⟨.punct .colon, c⟩ :: us)) := by
  intro next hnext span rest n hn
  simp only [List.length_cons, List.length_append] at hn
  obtain ⟨n, rfl⟩ : ∃ m, n = m + 1 := ⟨n - 1, by omega⟩
  obtain ⟨hend, hq⟩ := ends_next s.nested hnext span rest
  obtain ⟨v', hv', hrunv⟩ := hv _ n hend hq (by omega)
  obtain ⟨k', hk', hrunk⟩ := hk (⟨.punct .rbracket, b⟩ :: ⟨.punct .colon, c⟩ ::
    (us ++ ⟨.punct next, span⟩ :: rest)) n (ends_punct (by decide)) rfl (by omega)
  refine ⟨.computed (s.location (a.merge v'.span)) k' v',
    by simp [Property.unlocated, hk', hv'], ?_⟩
  simp [hrunk, hrunv, mark_punct]

theorem readsProperties_nil : ReadsProperties s [] [] := by
  intro span rest n hn
  obtain ⟨n, rfl⟩ : ∃ m, n = m + 1 := ⟨n - 1, by simp at hn; omega⟩
  exact ⟨[], rfl, by simp [startsWith_punct]⟩

theorem readsProperties_last {p : Property} {ts : List Lexeme} (h : ReadsProperty s p ts)
    (ho : Opens ts) : ReadsProperties s [p] ts := by
  intro span rest n hn
  obtain ⟨n, rfl⟩ : ∃ m, n = m + 1 := ⟨n - 1, by omega⟩
  obtain ⟨p', hp, hrun⟩ := h .rbrace (by decide) span rest n (by omega)
  refine ⟨[p'], by simp [unlocatedProperties, hp], ?_⟩
  simp [ho.startsWith _ (p := .rbrace) (by decide), hrun, startsWith_punct]

theorem readsProperties_more {p : Property} {ps : List Property} {ts us : List Lexeme}
    (h : ReadsProperty s p ts) (ho : Opens ts) (hps : ReadsProperties s ps us) (a : Span) :
    ReadsProperties s (p :: ps) (ts ++ ⟨.punct .comma, a⟩ :: us) := by
  intro span rest n hn
  simp only [List.length_cons, List.length_append] at hn
  obtain ⟨n, rfl⟩ : ∃ m, n = m + 1 := ⟨n - 1, by omega⟩
  obtain ⟨p', hp, hrun⟩ := h .comma (by decide) a (us ++ ⟨.punct .rbrace, span⟩ :: rest) n
    (by omega)
  obtain ⟨ps', hps', hruns⟩ := hps span rest n (by omega)
  refine ⟨p' :: ps', by simp [unlocatedProperties, hp, hps'], ?_⟩
  simp [ho.startsWith _ (p := .rbrace) (by decide), hrun, startsWith_punct, hruns]

/-! ## All forms -/

/-- What reading a form gives. An expression without parentheses is read as its shape asks for, one
at a place as the place does. -/
def Form.Read (s : Setting) : Form → List Lexeme → Prop
  | .node e, ts => Opens ts ∧
    match e.shape with
    | .primary => ReadsPrimary s e ts
    | .unary => ReadsUnary s e ts
    | .joined op => ∀ least ≤ op.left, ReadsOperands s least op.right e ts
    | .conditional => ReadsExpr s e ts
  | .placed p e, ts => Opens ts ∧
    match p with
    | .left op => ∀ least ≤ op.left, ReadsOperands s least (op.left + 1) e ts
    | .right op => ReadsBinary s op.right e ts
    | .operand => ReadsUnary s e ts
    | .object => ReadsPrimary s e ts
    | .test => ReadsBinary s 0 e ts
    | .free => ReadsExpr s e ts
  | .items es, ts => ReadsItems s es ts
  | .property p, ts => Opens ts ∧ ReadsProperty s p ts
  | .properties ps, ts => ReadsProperties s ps ts

theorem ReadsOperands.mono {least m n : Nat} {e : Node} {ts : List Lexeme}
    (h : ReadsOperands s least n e ts) (hmn : m ≤ n) : ReadsOperands s least m e ts :=
  fun rest k hend hk => h rest k (hend.mono hmn) hk

theorem read_unary {p : Place} {e : Node} {ts : List Lexeme} (ho : Opens ts)
    (h : ReadsUnary s e ts) (hp : p ≠ .object) : Form.Read s (.placed p e) ts := by
  refine ⟨ho, ?_⟩
  cases p with
  | left op => exact fun least _ => h.operands least _
  | right op => exact (h.operands _ _).binary ho.ne_nil
  | operand => exact h
  | object => exact absurd rfl hp
  | test => exact (h.operands _ _).binary ho.ne_nil
  | free => exact ((h.operands _ _).binary ho.ne_nil).expr

theorem read_primary {p : Place} {e : Node} {ts : List Lexeme} (ho : Opens ts)
    (h : ReadsPrimary s e ts) : Form.Read s (.placed p e) ts := by
  by_cases hp : p = .object
  · subst hp
    exact ⟨ho, h⟩
  · exact read_unary ho (h.unary ho.ne_nil) hp

theorem read_joined {p : Place} {e : Node} {ts : List Lexeme} {op : Infix} (ho : Opens ts)
    (h : ∀ least ≤ op.left, ReadsOperands s least op.right e ts) (hp : p.admits (.joined op)) :
    Form.Read s (.placed p e) ts := by
  refine ⟨ho, ?_⟩
  cases p with
  | left outer =>
    intro least hleast
    exact (h least (Nat.le_trans hleast (Infix.left_le_left hp))).mono hp
  | right outer => exact ((h _ hp).mono (Infix.right_le_right hp)).binary ho.ne_nil
  | operand => exact hp.elim
  | object => exact hp.elim
  | test => exact ((h 0 (Nat.zero_le _)).mono (Nat.zero_le _)).binary ho.ne_nil
  | free => exact (((h 0 (Nat.zero_le _)).mono (Nat.zero_le _)).binary ho.ne_nil).expr

theorem read_bare {p : Place} {e : Node} {ts : List Lexeme} (hp : p.admits e.shape)
    (h : Form.Read s (.node e) ts) : Form.Read s (.placed p e) ts := by
  obtain ⟨ho, h⟩ := h
  cases hs : e.shape with
  | primary =>
    simp only [hs] at h
    exact read_primary ho h
  | unary =>
    simp only [hs] at h hp
    refine read_unary ho h ?_
    rintro rfl
    exact hp
  | joined op =>
    simp only [hs] at h hp
    exact read_joined ho h hp
  | conditional =>
    simp only [hs] at h hp
    cases p with
    | free => exact ⟨ho, h⟩
    | _ => exact hp.elim

theorem Opens.append {ts : List Lexeme} (h : Opens ts) (us : List Lexeme) : Opens (ts ++ us) := by
  cases ts with
  | nil => exact h.elim
  | cons t ts => exact h

theorem opens_of_token {t : Lexeme} {ts : List Lexeme}
    (h : ∀ p ∈ [Punct.rparen, .rbracket, .rbrace], t.token ≠ .punct p) : Opens (t :: ts) := by
  obtain ⟨token, span⟩ := t
  intro p hp
  cases token with
  | punct q =>
    have hq : q ≠ p := by
      rintro rfl
      exact h q hp rfl
    simpa [startsWith_punct] using hq.symm
  | keyword _ | ident _ | number _ | string _ | template _ => rfl

theorem memberName?_ne_punct {t : Token} {name : String} (h : t.memberName? = some name)
    (p : Punct) : t ≠ .punct p := by
  rintro rfl
  simp [Token.memberName?] at h

theorem Key.writtenBy_ne_punct {k : Key} {t : Token} (h : k.WrittenBy t) (p : Punct) :
    t ≠ .punct p := by
  cases k with
  | name n => exact memberName?_ne_punct h p
  | string l text => rintro rfl; simp [Key.WrittenBy] at h
  | number l value => rintro rfl; simp [Key.WrittenBy] at h

theorem Writes.read {nested : Bool} {form : Form} {tokens : List Token}
    (h : Writes nested form tokens) (s : Setting) (hs : s.nested = nested) (ts : List Lexeme)
    (hts : ts.map (·.token) = tokens) : form.Read s ts := by
  -- The spans of `ts` are arbitrary; its tokens are cut as the constructor cuts them.
  induction h generalizing s ts with
  | @identifier _ n =>
    obtain ⟨span, rfl⟩ := exists_onlyLexeme hts
    exact ⟨opens_of_token (by simp), readsPrimary_identifier n span⟩
  | @literal _ l v =>
    obtain ⟨span, rfl⟩ := exists_onlyLexeme hts
    refine ⟨opens_of_token ?_, readsPrimary_literal l v span⟩
    rcases v with x | x | (_ | _) | _ <;> simp [Literal.token]
  | @array _ l es us _ ih =>
    obtain ⟨a, us, b, rfl, hus⟩ := exists_enclosedLexemes hts
    exact ⟨opens_of_token (by simp), readsPrimary_array (ih s.inner rfl us hus) l a b⟩
  | @object _ l ps us _ ih =>
    obtain ⟨a, us, b, rfl, hus⟩ := exists_enclosedLexemes hts
    exact ⟨opens_of_token (by simp), readsPrimary_object (ih s.inner rfl us hus) l a b⟩
  | @unary _ l op a us _ ih =>
    obtain ⟨span, us, rfl, hus⟩ := exists_firstLexeme hts
    refine ⟨opens_of_token ?_, readsUnary_unary (ih s hs us hus).2 l op span⟩
    cases op <;> simp [UnaryOp.token]
  | @joined _ l op a b us vs hop _ _ iha ihb =>
    subst hs
    obtain ⟨us, span, vs, rfl, hus, hvs⟩ := exists_lexemeBehind hts
    obtain ⟨ho, ha⟩ := iha s rfl us hus
    have hb := (ihb s rfl vs hvs).2
    refine ⟨ho.append _, ?_⟩
    have key : ∀ least ≤ op.left, ReadsOperands s least op.right (op.node l a b) _ :=
      fun least hleast => readsOperands_joined hop hleast (ha least hleast) hb l span
    cases op <;> exact key
  | @conditional _ l t x y us vs ws _ _ _ iht ihx ihy =>
    obtain ⟨us, a, ts, rfl, hus, hcut⟩ := exists_lexemeBehind hts
    obtain ⟨vs, b, ws, rfl, hvs, hws⟩ := exists_lexemeBehind hcut
    obtain ⟨ho, ht⟩ := iht s hs us hus
    exact ⟨ho.append _, readsExpr_conditional ht (ihx s hs vs hvs).2 (ihy s hs ws hws).2 l a b⟩
  | @field _ l o n t us _ ht ih =>
    obtain ⟨us, a, ts, rfl, hus, hcut⟩ := exists_lexemeBehind hts
    obtain ⟨b, rfl⟩ := exists_onlyLexeme hcut
    obtain ⟨ho, h⟩ := ih s hs us hus
    exact ⟨ho.append _, readsPrimary_field (t := ⟨t, b⟩) h ho.ne_nil l ht a⟩
  | @index _ l o i us vs _ _ iho ihi =>
    obtain ⟨us, a, ts, rfl, hus, hcut⟩ := exists_lexemeBehind hts
    obtain ⟨vs, b, rfl, hvs⟩ := exists_lastLexeme hcut
    obtain ⟨ho, h⟩ := iho s hs us hus
    exact ⟨ho.append _, readsPrimary_index h ho.ne_nil (ihi s.inner rfl vs hvs).2 l a b⟩
  | @call _ l f args us vs _ _ ihf iha =>
    obtain ⟨us, a, ts, rfl, hus, hcut⟩ := exists_lexemeBehind hts
    obtain ⟨vs, b, rfl, hvs⟩ := exists_lastLexeme hcut
    obtain ⟨ho, h⟩ := ihf s hs us hus
    exact ⟨ho.append _, readsPrimary_call h ho.ne_nil (iha s.inner rfl vs hvs) l a b⟩
  | bare hp _ ih => exact read_bare hp (ih s hs ts hts)
  | @parens _ p e us _ ih =>
    -- In parentheses every expression may stand, and bars are operators.
    obtain ⟨a, us, b, rfl, hus⟩ := exists_enclosedLexemes hts
    exact read_primary (opens_of_token (by simp))
      (readsPrimary_parens (ih s.inner rfl us hus).2 a b)
  | noItems =>
    obtain rfl := List.map_eq_nil_iff.1 hts
    exact readsItems_nil
  | lastItem _ ih =>
    obtain ⟨ho, h⟩ := ih s hs ts hts
    exact readsItems_last h ho
  | moreItems _ _ ihe ihes =>
    obtain ⟨us, a, vs, rfl, hus, hvs⟩ := exists_lexemeBehind hts
    obtain ⟨ho, h⟩ := ihe s hs us hus
    exact readsItems_more h ho (ihes s hs vs hvs) a
  | @shorthand _ n =>
    obtain ⟨span, rfl⟩ := exists_onlyLexeme hts
    exact ⟨opens_of_token (by simp), readsProperty_shorthand n span⟩
  | @keyed _ l k v t us hk _ ih =>
    obtain ⟨a, ts, rfl, hcut⟩ := exists_firstLexeme hts
    obtain ⟨b, us, rfl, hus⟩ := exists_firstLexeme hcut
    exact ⟨opens_of_token fun p _ => Key.writtenBy_ne_punct hk p,
      readsProperty_keyed hk (ih s hs us hus).2 l a b⟩
  | @computed _ l k v us vs _ _ ihk ihv =>
    obtain ⟨a, ts, rfl, hcut⟩ := exists_firstLexeme hts
    obtain ⟨us, b, ts, rfl, hus, hcut'⟩ := exists_lexemeBehind hcut
    obtain ⟨c, vs, rfl, hvs⟩ := exists_firstLexeme hcut'
    exact ⟨opens_of_token (by simp),
      readsProperty_computed (ihk s hs us hus).2 (ihv s hs vs hvs).2 l a b c⟩
  | noProperties =>
    obtain rfl := List.map_eq_nil_iff.1 hts
    exact readsProperties_nil
  | lastProperty _ ih =>
    obtain ⟨ho, h⟩ := ih s hs ts hts
    exact readsProperties_last h ho
  | moreProperties _ _ ihp ihps =>
    obtain ⟨us, a, vs, rfl, hus, hvs⟩ := exists_lexemeBehind hts
    obtain ⟨ho, h⟩ := ihp s hs us hus
    exact readsProperties_more h ho (ihps s hs vs hvs) a

/-! ## Whole sources -/

theorem tokenizeFrom_length {cs : List Char} {pos skip : Nat} {ts : List Lexeme}
    (h : tokenizeFrom pos skip cs = .ok ts) : ts.length ≤ cs.length := by
  induction cs generalizing pos skip ts with
  | nil =>
    simp only [tokenizeFrom, Except.ok.injEq] at h
    simp [← h]
  | cons c cs ih =>
    rw [List.length_cons]
    cases skip with
    | succ skip => exact Nat.le_succ_of_le (ih h)
    | zero =>
      simp only [tokenizeFrom] at h
      split at h
      · exact Nat.le_succ_of_le (ih h)
      · split at h
        · obtain ⟨us, hus, hts⟩ := bind_eq_ok.1 h
          simp only [pure_eq_ok, Except.ok.injEq] at hts
          have hlen := ih hus
          rw [← hts, List.length_cons]
          omega
        · cases h
        · cases h

theorem le_fuelFor {cs : List Char} {ts : List Lexeme} (h : tokenizeFrom 0 0 cs = .ok ts) :
    8 * ts.length + 2 ≤ fuelFor cs := by
  have hlen := tokenizeFrom_length h
  unfold fuelFor
  omega

def Setting.whole (nested : Bool) (source : String) : Setting :=
  ⟨LineIndex.ofChars source.toList, Text.byteLength source.toList, nested⟩

theorem runParser_ok {α : Type} {nested : Bool}
    {parser : Setting → Nat → List Lexeme → Except Stop (Followed α)} {source : String}
    {ts : List Lexeme} {value : α} (hts : tokenize source 0 = .ok ts)
    (h : parser (.whole nested source) (fuelFor source.toList) ts = .ok (value, [])) :
    runParser nested parser source = .ok value := by
  unfold tokenize at hts
  unfold Setting.whole at h
  simp [runParser, hts, h, finished]

theorem readsExpr_of_writes {s : Setting} {e : Node} {ts : List Lexeme}
    (h : Writes s.nested (.placed .free e) (ts.map (·.token))) : ReadsExpr s e ts :=
  (h.read s rfl ts rfl).2

theorem parseFilters_nil {s : Setting} {n : Nat} (hn : 0 < n) :
    parseFilters s n [] = .ok ([], []) := by
  obtain ⟨n, rfl⟩ : ∃ m, n = m + 1 := ⟨n - 1, by omega⟩
  rfl

/-- The tokens that write an expression are parsed to it, up to locations: in front of tokens that
do not go on with it, as a whole source where a bar is an operator, and as a whole source where a
bar would send it through a filter. -/
theorem parse_of_writes (e : Node) :
    (∀ (s : Setting) (ts rest : List Lexeme) (n : Nat),
      Writes s.nested (.placed .free e) (ts.map (·.token)) → Ends s.nested 0 rest →
      startsWith .question rest = false → 8 * ts.length + 2 ≤ n →
      ∃ e', e'.unlocated = e.unlocated ∧ parseExpr s n (ts ++ rest) = .ok (e', rest)) ∧
    (∀ (source : String) (ts : List Lexeme), tokenize source 0 = .ok ts →
      Writes true (.placed .free e) (ts.map (·.token)) →
      ∃ e', e'.unlocated = e.unlocated ∧ parseExpression source = .ok e') ∧
    (∀ (source : String) (ts : List Lexeme), tokenize source 0 = .ok ts →
      Writes false (.placed .free e) (ts.map (·.token)) →
      ∃ p, p.unlocated = ⟨e.unlocated, [], default⟩ ∧ parse source = .ok p) := by
  refine ⟨fun s ts rest n h hend hq hn => readsExpr_of_writes h rest n hend hq hn, ?_, ?_⟩
  · intro source ts hts h
    have hread : ReadsExpr (.whole true source) e ts := readsExpr_of_writes h
    obtain ⟨e', he, hrun⟩ := hread [] (fuelFor source.toList) trivial rfl (le_fuelFor hts)
    rw [List.append_nil] at hrun
    exact ⟨e', he, runParser_ok hts hrun⟩
  · intro source ts hts h
    have hread : ReadsExpr (.whole false source) e ts := readsExpr_of_writes h
    obtain ⟨e', he, hrun⟩ := hread [] (fuelFor source.toList) trivial rfl (le_fuelFor hts)
    rw [List.append_nil] at hrun
    have hfilters : parseFilters (.whole false source) (fuelFor source.toList) [] = .ok ([], []) :=
      parseFilters_nil (by simp [fuelFor])
    refine ⟨⟨e', [], (Setting.whole false source).location e'.span⟩,
      by simp [Piped.unlocated, he], runParser_ok hts ?_⟩
    simp [parsePiped, hrun, hfilters, Node.span, Location.span]

def sampleTree : Node :=
  .conditional default
    (.binary default .sub (.identifier ⟨default, "a"⟩)
      (.binary default .sub (.identifier ⟨default, "b"⟩) (.identifier ⟨default, "c"⟩)))
    (.array default [.unary default .not (.identifier ⟨default, "d"⟩)])
    (.field default (.identifier ⟨default, "e"⟩) ⟨default, "in"⟩)

def sampleTokens : List Token :=
  [.ident "a", .punct .minus, .punct .lparen, .ident "b", .punct .minus, .ident "c",
   .punct .rparen, .punct .question, .punct .lbracket, .punct .bang, .ident "d", .punct .comma,
   .punct .rbracket, .punct .colon, .ident "e", .punct .dot, .keyword .in]

theorem sampleTree_writes (nested : Bool) :
    Writes nested (.placed .free sampleTree) sampleTokens := by
  have hname (nested : Bool) (p : Place) (x : String) :
      Writes nested (.placed p (.identifier ⟨default, x⟩)) [.ident x] := by
    refine .bare ?_ .identifier
    cases p <;> trivial
  have hinner : Writes true (.placed .free ((Infix.binary .sub).node default
      (.identifier ⟨default, "b"⟩) (.identifier ⟨default, "c"⟩)))
      ([.ident "b"] ++ (Infix.binary .sub).token :: [.ident "c"]) :=
    .bare trivial (.joined (.inl rfl) (hname ..) (hname ..))
  have htest : Writes nested (.placed .test ((Infix.binary .sub).node default
      (.identifier ⟨default, "a"⟩) ((Infix.binary .sub).node default
        (.identifier ⟨default, "b"⟩) (.identifier ⟨default, "c"⟩)))) _ :=
    .bare trivial (.joined (.inr (by decide)) (hname ..) (.parens hinner))
  have hlist : Writes nested
      (.node (.array default [.unary default .not (.identifier ⟨default, "d"⟩)])) _ :=
    .array (.moreItems (.bare trivial (.unary (hname ..))) .noItems)
  have hfield : Writes nested
      (.node (.field default (.identifier ⟨default, "e"⟩) ⟨default, "in"⟩))
      ([.ident "e"] ++ [.punct .dot, .keyword .in]) :=
    .field (hname ..) rfl
  exact .bare trivial (.conditional htest (.bare trivial hlist) (.bare trivial hfield))

theorem sampleTree_parsed :
    (∀ nested, Writes nested (.placed .free sampleTree) sampleTokens) ∧
    ∃ ts, tokenize "a - (b - c) ? [!d,] : e.in" 0 = .ok ts ∧ ts.map (·.token) = sampleTokens ∧
      (∃ e', e'.unlocated = sampleTree.unlocated ∧
        parseExpr (.whole true "") 200 (ts ++ [⟨.punct .rparen, default⟩]) =
          .ok (e', [⟨.punct .rparen, default⟩])) ∧
      (∃ e', e'.unlocated = sampleTree.unlocated ∧
        parseExpression "a - (b - c) ? [!d,] : e.in" = .ok e') ∧
      (∃ p, p.unlocated = ⟨sampleTree.unlocated, [], default⟩ ∧
        parse "a - (b - c) ? [!d,] : e.in" = .ok p) := by
  have hlex : (tokenize "a - (b - c) ? [!d,] : e.in" 0).map (List.map (·.token)) =
      .ok sampleTokens := rfl
  refine ⟨sampleTree_writes, ?_⟩
  cases hts : tokenize "a - (b - c) ? [!d,] : e.in" 0 with
  | error e => simp [hts, Except.map] at hlex
  | ok ts =>
    have hmap : ts.map (·.token) = sampleTokens := by simpa [hts, Except.map] using hlex
    have hlen : ts.length = 17 := by simpa [sampleTokens] using congrArg List.length hmap
    have hwrites (nested : Bool) : Writes nested (.placed .free sampleTree) (ts.map (·.token)) :=
      hmap ▸ sampleTree_writes nested
    obtain ⟨h1, h2, h3⟩ := parse_of_writes sampleTree
    exact ⟨ts, rfl, hmap,
      h1 (.whole true "") ts _ 200 (hwrites _) (ends_punct (by decide)) rfl (by omega),
      h2 _ ts hts (hwrites _), h3 _ ts hts (hwrites _)⟩

end VueToSan.Expr
