import VueToSan.Proofs.BracketedTokens

/-!
# Bars outside of brackets

A bar outside of all brackets is where an expression goes into a filter, and no other bar is.
Without such bars it makes no difference whether bars are operators everywhere or only in brackets.
-/

namespace VueToSan.Expr

open VueToSan.Text

/-! ## Brackets around a place -/

/-- The brackets that stay open at a closing one, from the innermost on. A bracket of another kind
closes nothing. -/
def Bracket.close (b : Bracket) : List Bracket → List Bracket
  | [] => []
  | c :: around => if b = c then around else c :: around

def Token.around (around : List Bracket) : Token → List Bracket
  | .punct .lparen => .round :: around
  | .punct .lbracket => .square :: around
  | .punct .lbrace => .curly :: around
  | .punct .rparen => Bracket.round.close around
  | .punct .rbracket => Bracket.square.close around
  | .punct .rbrace => Bracket.curly.close around
  | _ => around

def Token.isBar : Token → Bool
  | .punct .pipe => true
  | _ => false

def bracketsAround : List Bracket → List Lexeme → List Bracket
  | around, [] => around
  | around, t :: ts => bracketsAround (t.token.around around) ts

/-- How many bars of a token list stand outside of all brackets, those around the list included. -/
def outerBars : List Bracket → List Lexeme → Nat
  | _, [] => 0
  | around, t :: ts =>
    (if t.token.isBar && around.isEmpty then 1 else 0) + outerBars (t.token.around around) ts

theorem bracketsAround_append (around : List Bracket) (ts us : List Lexeme) :
    bracketsAround around (ts ++ us) = bracketsAround (bracketsAround around ts) us := by
  induction ts generalizing around with
  | nil => rfl
  | cons t ts ih => exact ih _

theorem outerBars_append (around : List Bracket) (ts us : List Lexeme) :
    outerBars around (ts ++ us) =
      outerBars around ts + outerBars (bracketsAround around ts) us := by
  induction ts generalizing around with
  | nil => rw [List.nil_append, outerBars, Nat.zero_add, bracketsAround]
  | cons t ts ih => rw [List.cons_append, outerBars, ih, outerBars, bracketsAround, Nat.add_assoc]

theorem isBar_of_outerBars {t : Lexeme} {ts : List Lexeme} (h : outerBars [] (t :: ts) = 0) :
    t.token.isBar = false := by
  rw [outerBars, Nat.add_eq_zero_iff] at h
  simpa using h.1

/-! ## Matched tokens -/

theorem Token.around_of_depth? {nested : Bool} (t : Token) (h : t.depth? nested 0 = some 0)
    (around : List Bracket) : t.around around = around := by
  unfold Token.depth? at h
  split at h
  case h_8 => simp_all [Token.around]
  all_goals first | rfl | cases h

theorem Token.nested_of_isBar {nested : Bool} (t : Token) (hbar : t.isBar = true)
    (h : t.depth? nested 0 = some 0) : nested = true := by
  unfold Token.isBar at hbar
  split at hbar
  · cases nested with
    | false => cases h
    | true => rfl
  · cases hbar

/-- Tokens that leave the brackets around them as they are. No bar among them stands outside of
brackets, those around them included where bars are operators. -/
structure Matched (nested : Bool) (ts : List Lexeme) : Prop where
  around : ∀ around, bracketsAround around ts = around
  bars : ∀ around, (nested = true → around ≠ []) → outerBars around ts = 0

namespace Matched

variable {nested : Bool} {ts us : List Lexeme}

theorem nil (nested : Bool) : Matched nested [] := ⟨fun _ => rfl, fun _ _ => rfl⟩

theorem append (hts : Matched nested ts) (hus : Matched nested us) : Matched nested (ts ++ us) where
  around around := by rw [bracketsAround_append, hts.around, hus.around]
  bars around h := by rw [outerBars_append, hts.bars around h, hts.around, hus.bars around h]

theorem token {t : Lexeme} (h : t.token.depth? nested 0 = some 0) : Matched nested [t] where
  around := t.token.around_of_depth? h
  bars around hnested := by
    cases hbar : t.token.isBar with
    | false => simp [outerBars, hbar]
    | true => simp [outerBars, hnested (t.token.nested_of_isBar hbar h)]

theorem enclosed {o c : Lexeme} {b : Bracket} (ho : ∀ around, o.token.around around = b :: around)
    (hc : ∀ around, c.token.around (b :: around) = around) (hbar : o.token.isBar = false)
    (hts : Matched true ts) : Matched nested (o :: (ts ++ [c])) where
  around around := by
    rw [bracketsAround, ho, bracketsAround_append, hts.around, bracketsAround, hc]
    rfl
  bars around _ := by
    rw [outerBars, ho, hbar, outerBars_append, hts.around, hts.bars _ (by simp)]
    simp [outerBars]

end Matched

/-! ## Parsed tokens -/

theorem Bracketed.matched {nested : Bool} {ts : List Lexeme} (h : Bracketed nested ts) :
    Matched nested ts := by
  induction h with
  | nil => exact .nil _
  | token ht _ ih => exact (Matched.token ht).append ih
  | @enclosed nested b o c ts us _ _ ihts ihus =>
    have hbrackets : Matched nested
        (⟨.punct b.opening, o⟩ :: (ts ++ [⟨.punct b.closing, c⟩])) := by
      cases b <;> exact .enclosed (fun _ => rfl) (fun _ => rfl) rfl ihts
    simpa using hbrackets.append ihus

theorem Between.outerBars {ts rest : List Lexeme} (h : Between false ts rest) :
    outerBars [] ts = outerBars [] rest := by
  obtain ⟨xs, rfl, hxs⟩ := h
  rw [outerBars_append, hxs.matched.around, hxs.matched.bars [] (by simp), Nat.zero_add]

/-- An expression outside of brackets takes no bar there. -/
theorem ExprDerived.outerBars {s : Setting} {ts rest : List Lexeme} {e : Node}
    (h : ExprDerived s ts e rest) (hs : s.nested = false) :
    outerBars [] ts = outerBars [] rest :=
  Between.outerBars (hs ▸ h.between)

/-! ## Bars as operators -/

theorem Setting.inner_inner (s : Setting) : s.inner.inner = s.inner := rfl

theorem Setting.mark_inner (s : Setting) (p : Punct) (ts : List Lexeme) :
    s.inner.mark p ts = s.mark p ts := rfl

theorem bind_congr_ok {ε α β : Type} {x : Except ε α} {f g : α → Except ε β}
    (h : ∀ a, x = .ok a → f a = g a) : x >>= f = x >>= g := by
  cases x with
  | error e => rfl
  | ok a => exact h a rfl

theorem parsePieces_inner (s : Setting) (base n : Nat) (ps : List Piece) :
    parsePieces s.inner base n ps = parsePieces s base n ps := by
  induction n generalizing ps with
  | zero => rw [parsePieces, parsePieces]
  | succ n ih =>
    cases ps with
    | nil => rw [parsePieces, parsePieces]
    | cons p ps =>
      cases p with
      | text offset chars =>
        rw [parsePieces, parsePieces, ih]
        rfl
      | code offset chars =>
        rw [parsePieces, parsePieces, ih]
        rfl

theorem binding?_nested {t : Token} (h : t.isBar = false) (nested : Bool) :
    t.binding? nested = t.binding? false := by
  unfold Token.binding?
  split <;> first | rfl | cases h

/-- With a given fuel it makes no difference to a parse outside of brackets whether bars are
operators there, if no bar stands outside of brackets. -/
structure Agrees (s : Setting) (n : Nat) : Prop where
  expr : ∀ {ts}, outerBars [] ts = 0 → parseExpr s.inner n ts = parseExpr s n ts
  binary : ∀ {least ts}, outerBars [] ts = 0 →
    parseBinary s.inner least n ts = parseBinary s least n ts
  operators : ∀ {least left ts}, outerBars [] ts = 0 →
    parseOperators s.inner least n left ts = parseOperators s least n left ts
  unary : ∀ {ts}, outerBars [] ts = 0 → parseUnary s.inner n ts = parseUnary s n ts
  member : ∀ {ts}, outerBars [] ts = 0 → parseMember s.inner n ts = parseMember s n ts
  accesses : ∀ {object ts}, outerBars [] ts = 0 →
    parseAccesses s.inner n object ts = parseAccesses s n object ts
  primary : ∀ {ts}, parsePrimary s.inner n ts = parsePrimary s n ts

namespace Agrees

theorem zero (s : Setting) : Agrees s 0 where
  expr _ := by rw [parseExpr, parseExpr]
  binary _ := by rw [parseBinary, parseBinary]
  operators _ := by rw [parseOperators, parseOperators]
  unary _ := by rw [parseUnary, parseUnary]
  member _ := by rw [parseMember, parseMember]
  accesses _ := by rw [parseAccesses, parseAccesses]
  primary {ts} := by simp only [parsePrimary]

variable {s : Setting} {n : Nat} (hs : s.nested = false) (ih : Agrees s n) {ts : List Lexeme}

include hs ih

theorem expr_succ (h : outerBars [] ts = 0) :
    parseExpr s.inner (n + 1) ts = parseExpr s (n + 1) ts := by
  rw [parseExpr, parseExpr, ih.binary h]
  refine bind_congr_ok ?_
  rintro ⟨test, us⟩ htest
  rw [((Derives.all n).binary htest).outerBars hs] at h
  dsimp only
  split_ifs with hquestion
  · obtain ⟨a, us, rfl⟩ := exists_of_startsWith hquestion
    rw [(Between.token rfl).outerBars] at h
    rw [List.tail_cons, ih.expr h]
    refine bind_congr_ok ?_
    rintro ⟨x, vs⟩ hx
    rw [((Derives.all n).expr hx).outerBars hs] at h
    simp only [s.mark_inner]
    refine bind_congr_ok ?_
    rintro ⟨b, ws⟩ hcolon
    obtain rfl := mark_eq_ok hcolon
    rw [(Between.token rfl).outerBars] at h
    dsimp only
    rw [ih.expr h]
    rfl
  · rfl

theorem binary_succ {least : Nat} (h : outerBars [] ts = 0) :
    parseBinary s.inner least (n + 1) ts = parseBinary s least (n + 1) ts := by
  rw [parseBinary, parseBinary, ih.unary h]
  refine bind_congr_ok ?_
  rintro ⟨left, us⟩ hleft
  rw [((Derives.all n).unary hleft).outerBars hs] at h
  exact ih.operators h

theorem operators_succ {least : Nat} {left : Node} (h : outerBars [] ts = 0) :
    parseOperators s.inner least (n + 1) left ts = parseOperators s least (n + 1) left ts := by
  cases ts with
  | nil => rw [parseOperators, parseOperators]
  | cons t ts =>
    rw [parseOperators, parseOperators, hs, binding?_nested (isBar_of_outerBars h)]
    split
    · rfl
    · rename_i b hb
      split_ifs
      · rfl
      · rw [(Between.token (depth?_of_binding? hb)).outerBars] at h
        rw [ih.binary h]
        refine bind_congr_ok ?_
        rintro ⟨right, us⟩ hright
        rw [((Derives.all n).binary hright).outerBars hs] at h
        exact ih.operators h

omit hs in
theorem unary_succ (h : outerBars [] ts = 0) :
    parseUnary s.inner (n + 1) ts = parseUnary s (n + 1) ts := by
  cases ts with
  | nil => rw [parseUnary, parseUnary, ih.member h]
  | cons t ts =>
    rw [parseUnary, parseUnary, ih.member h]
    split
    · rename_i op hop
      rw [(Between.token (depth?_of_unaryOp? hop _)).outerBars] at h
      rw [ih.unary h]
      rfl
    · rfl

theorem member_succ (h : outerBars [] ts = 0) :
    parseMember s.inner (n + 1) ts = parseMember s (n + 1) ts := by
  rw [parseMember, parseMember, ih.primary]
  refine bind_congr_ok ?_
  rintro ⟨object, us⟩ hobject
  rw [((Derives.all n).primary hobject).outerBars hs] at h
  exact ih.accesses h

omit hs in
theorem accesses_succ {object : Node} (h : outerBars [] ts = 0) :
    parseAccesses s.inner (n + 1) object ts = parseAccesses s (n + 1) object ts := by
  generalize hfuel : n + 1 = fuel
  fun_cases parseAccesses s fuel object ts with
  | case1 => cases hfuel
  | case2 m object span => rfl
  | case3 m object span t rest name hname =>
    cases hfuel
    simp only [parseAccesses, hname]
    rw [(Between.token rfl).outerBars,
      (Between.token (depth?_of_memberName? hname _)).outerBars] at h
    exact ih.accesses h
  | case4 m object span t rest hname =>
    simp only [parseAccesses, hname]
    rfl
  | case5 m object span ts =>
    cases hfuel
    -- Between brackets both settings are one; behind them no bar stands outside.
    rw [parseAccesses, s.inner_inner]
    refine bind_congr_ok ?_
    rintro ⟨index, us⟩ hindex
    simp only [s.mark_inner]
    refine bind_congr_ok ?_
    rintro ⟨b, rest⟩ hclose
    obtain rfl := mark_eq_ok hclose
    rw [((Derives.all n).expr hindex).between.square.outerBars] at h
    exact ih.accesses h
  | case6 m object span ts =>
    cases hfuel
    rw [parseAccesses, s.inner_inner]
    refine bind_congr_ok ?_
    rintro ⟨arguments, us⟩ harguments
    simp only [s.mark_inner]
    refine bind_congr_ok ?_
    rintro ⟨b, rest⟩ hclose
    obtain rfl := mark_eq_ok hclose
    rw [((Derives.all n).items harguments).between.round.outerBars] at h
    exact ih.accesses h
  | case7 => simp only [parseAccesses]

omit hs ih in
theorem primary_succ : parsePrimary s.inner (n + 1) ts = parsePrimary s (n + 1) ts := by
  cases ts with
  | nil => rfl
  | cons t ts =>
    unfold parsePrimary
    simp only [parsePieces_inner]
    rfl

theorem succ : Agrees s (n + 1) where
  expr := ih.expr_succ hs
  binary := ih.binary_succ hs
  operators := ih.operators_succ hs
  unary := ih.unary_succ
  member := ih.member_succ hs
  accesses := ih.accesses_succ
  primary := primary_succ

omit ih in
theorem all (n : Nat) : Agrees s n := by
  induction n with
  | zero => exact zero s
  | succ n ih => exact ih.succ hs

end Agrees

/-! ## Filters -/

theorem FiltersDerived.length {s : Setting} {ts rest : List Lexeme} {fs : List Filter}
    (h : FiltersDerived s ts fs rest) : outerBars [] ts = fs.length + outerBars [] rest := by
  induction h with
  | nil => exact (Nat.zero_add _).symm
  | @plain bar name span ts fs rest h ih =>
    have hname : Between false (⟨.ident name, span⟩ :: ts) ts := .token rfl
    change 1 + outerBars [] (⟨.ident name, span⟩ :: ts) = _
    rw [hname.outerBars, ih, List.length_cons]
    omega
  | @called bar name span a ts es b us fs rest hitems h ih =>
    have hname : Between false (⟨.ident name, span⟩ :: ⟨.punct .lparen, a⟩ :: ts) us :=
      (Between.token rfl).trans hitems.between.round
    change 1 + outerBars [] (⟨.ident name, span⟩ :: ⟨.punct .lparen, a⟩ :: ts) = _
    rw [hname.outerBars, ih, List.length_cons]
    omega

theorem parseFilters_of_outerBars {s : Setting} {n : Nat} {ts : List Lexeme} (hn : 0 < n)
    (h : outerBars [] ts = 0) : parseFilters s n ts = .ok ([], ts) := by
  fun_cases parseFilters s n ts with
  | case1 => cases hn
  | case5 m ts hbar => rfl
  | _ => cases isBar_of_outerBars h

theorem parsePiped_of_outerBars {s : Setting} {n : Nat} {ts : List Lexeme} (hs : s.nested = false)
    (hn : 0 < n) (h : outerBars [] ts = 0) :
    (parsePiped s n ts).map (Prod.map (fun p => (p.expression, p.filters)) id) =
      (parseExpr s.inner n ts).map (Prod.map (·, []) id) := by
  rw [parsePiped, (Agrees.all hs n).expr h]
  cases hexpr : parseExpr s n ts with
  | error e => rfl
  | ok result =>
    obtain ⟨e, us⟩ := result
    rw [((Derives.all n).expr hexpr).outerBars hs] at h
    simp only [ok_bind, parseFilters_of_outerBars hn h]
    rfl

theorem runParser_map {α β γ : Type} {source : String} {nested nested' : Bool}
    {parser : Setting → Nat → List Lexeme → Except Stop (Followed α)}
    {parser' : Setting → Nat → List Lexeme → Except Stop (Followed β)} {f : α → γ} {g : β → γ}
    (h : ∀ ts, tokenize source 0 = .ok ts →
      (parser (.whole nested source) (fuelFor source.toList) ts).map (Prod.map f id) =
        (parser' (.whole nested' source) (fuelFor source.toList) ts).map (Prod.map g id)) :
    (runParser nested parser source).map f = (runParser nested' parser' source).map g := by
  unfold runParser
  dsimp only
  cases hts : tokenizeFrom 0 0 source.toList with
  | error e => rfl
  | ok ts =>
    have hts := h ts hts
    unfold Setting.whole at hts
    rw [mapError_ok, ok_bind, ok_bind]
    -- What counts of the results is whether there are any, and whether tokens are left.
    generalize parser _ _ ts = x, parser' _ _ ts = y at hts ⊢
    cases x with
    | error e =>
      cases y with
      | error e' =>
        obtain rfl := Except.error.inj hts
        rfl
      | ok b => cases hts
    | ok a =>
      cases y with
      | error e' => cases hts
      | ok b =>
        obtain ⟨a, us⟩ := a
        obtain ⟨b, vs⟩ := b
        obtain ⟨hvalue, hrest : us = vs⟩ := Prod.mk.inj (Except.ok.inj hts)
        subst hrest
        cases us with
        | nil => exact congrArg Except.ok hvalue
        | cons t us => rfl

/-- Parsed sources have as many filters as bars outside of brackets. A source without such bars is
parsed alike where bars are operators everywhere. -/
theorem parse_outerBars (source : String) :
    (∀ p, parse source = .ok p →
      ∃ ts, tokenize source 0 = .ok ts ∧ p.filters.length = outerBars [] ts) ∧
    ((∀ ts, tokenize source 0 = .ok ts → outerBars [] ts = 0) →
      (parse source).map (fun p => (p.expression, p.filters)) =
        (parseExpression source).map fun e => (e, [])) := by
  constructor
  · intro p h
    obtain ⟨ts, us, hts, hexpr, hfilters, -⟩ := parse_derived h
    refine ⟨ts, hts.tokenizeFrom, ?_⟩
    rw [hexpr.outerBars rfl, hfilters.length]
    rfl
  · intro hbars
    rw [parse, parseExpression]
    refine runParser_map fun ts hts => ?_
    exact parsePiped_of_outerBars rfl (by simp [fuelFor]) (hbars ts hts)

def sampleInnerBars : String := "(a | b)[c | `${d | e} | f`] + {x: y | z}"

theorem sampleInnerBars_outerBars :
    (∀ ts, tokenize sampleInnerBars 0 = .ok ts → outerBars [] ts = 0) ∧
    (parse sampleInnerBars).map (fun p => (p.expression, p.filters)) =
      (parseExpression sampleInnerBars).map (fun e => (e, [])) ∧
    ∃ p ts, parse (sampleInnerBars ++ " | f(x | y) | g") = .ok p ∧
      tokenize (sampleInnerBars ++ " | f(x | y) | g") 0 = .ok ts ∧
      p.filters.length = outerBars [] ts ∧ outerBars [] ts = 2 := by
  have hinner : ∀ ts, tokenize sampleInnerBars 0 = .ok ts → outerBars [] ts = 0 := by
    decide +kernel
  have hparsed : (parse (sampleInnerBars ++ " | f(x | y) | g")).toOption.isSome = true := by
    decide +kernel
  have hcount : ∀ ts, tokenize (sampleInnerBars ++ " | f(x | y) | g") 0 = .ok ts →
      outerBars [] ts = 2 := by decide +kernel
  obtain ⟨p, hp⟩ := Option.isSome_iff_exists.1 hparsed
  rw [toOption_eq_some] at hp
  obtain ⟨ts, hts, hlength⟩ := (parse_outerBars _).1 p hp
  exact ⟨hinner, (parse_outerBars _).2 hinner, p, ts, hp, hts, hlength, hcount ts hts⟩

end VueToSan.Expr
