import VueToSan.Proofs.RepeatedParses

/-!
# Tokens under a tree

The span of a parsed tree covers the tokens that it was parsed from, but not the parentheses at
their edges: those around the tree, those in front of its first part and those behind its last part.
If the brackets under the span match, what is left out are parentheses around the tree, and what is
covered can be parsed alone.
-/

namespace VueToSan.Expr

/-! ## Covers -/

variable {stop : Nat} {xs ys zs : List Lexeme}

theorem cover_append (hxs : xs ≠ []) (hys : ys ≠ []) :
    cover (xs ++ ys) = ⟨(cover xs).start, (cover ys).stop⟩ := by
  rw [cover, List.head?_append_of_ne_nil _ hxs, List.getLast?_append_of_ne_nil _ hys]
  rfl

theorem exists_cover (hxs : xs ≠ []) :
    ∃ t ∈ xs, ∃ u ∈ xs, cover xs = ⟨t.span.start, u.span.stop⟩ := by
  refine ⟨xs.head hxs, List.head_mem hxs, xs.getLast hxs, List.getLast_mem hxs, ?_⟩
  rw [cover, List.head?_eq_some_head hxs, List.getLast?_eq_some_getLast hxs]
  rfl

theorem InOrder.cover_merge (xs zs ys : List Lexeme) (h : InOrder stop (xs ++ (zs ++ ys)))
    (hxs : xs ≠ []) (hys : ys ≠ []) :
    (cover xs).merge (cover ys) = cover (xs ++ (zs ++ ys)) := by
  have hback : (cover (zs ++ ys)).stop = (cover ys).stop := by
    rw [cover, List.getLast?_append_of_ne_nil _ hys]
    rfl
  rw [cover_append hxs (List.append_ne_nil_of_right_ne_nil zs hys), hback]
  have hpair := (List.pairwise_append.1 (h.order.sublist
    ((List.sublist_append_right zs ys).append_left xs))).2.2
  obtain ⟨t, ht, u, hu, hx⟩ := exists_cover hxs
  obtain ⟨v, hv, w, hw, hy⟩ := exists_cover hys
  have hmem {a : Lexeme} (ha : a ∈ xs ∨ a ∈ ys) : a ∈ xs ++ (zs ++ ys) := by
    rcases ha with ha | ha <;> simp [ha]
  have hstart := hpair t ht v hv
  have hstop := hpair u hu w hw
  have htspan := h.spans t (hmem (.inl ht))
  have hwspan := h.spans w (hmem (.inr hw))
  rw [hx, hy, Span.merge]
  simp only [Span.mk.injEq]
  omega

theorem InOrder.location_cover {s : Setting} (h : InOrder s.lines.length xs) (hxs : xs ≠ []) :
    (s.location (cover xs)).span = cover xs := by
  obtain ⟨t, ht, u, hu, hx⟩ := exists_cover hxs
  have htspan := h.spans t ht
  have huspan := h.spans u hu
  rw [hx]
  simp only [Setting.location, LineIndex.location, Location.span, LineIndex.position,
    Span.mk.injEq]
  omega

/-! ## Covered parts -/

/-- Some parse of the tokens, whatever stands behind them, gives the tree up to locations. -/
def Stands (e : Node) (ts : List Lexeme) : Prop :=
  ∃ (s : Setting) (n : Nat) (e' : Node) (rest : List Lexeme),
    e'.unlocated = e.unlocated ∧ parseExpr s n (ts ++ rest) = .ok (e', rest)

/-- A span covers tokens of a list behind opening parentheses. -/
def FrontAt (span : Span) (ts : List Lexeme) : Prop :=
  ∃ pre core post, ts = pre ++ (core ++ post) ∧ (∀ t ∈ pre, t.token = .punct .lparen) ∧
    core ≠ [] ∧ span = cover core

def BackAt (span : Span) (ts : List Lexeme) : Prop :=
  ∃ pre core post, ts = pre ++ (core ++ post) ∧ (∀ t ∈ post, t.token = .punct .rparen) ∧
    core ≠ [] ∧ span = cover core

/-- The span of a tree covers the tokens but parentheses at the edges. If brackets match under it,
there are no such parentheses or the tree is parsed from what it covers. -/
def Covers (e : Node) (used : List Lexeme) : Prop :=
  ∃ pre core post, used = pre ++ (core ++ post) ∧ (∀ t ∈ pre, t.token = .punct .lparen) ∧
    (∀ t ∈ post, t.token = .punct .rparen) ∧ core ≠ [] ∧ e.span = cover core ∧
    (Closed true core → pre = [] ∧ post = [] ∨ Stands e core)

/-- A span covers tokens of a list behind opening parentheses and in front of a mark. -/
def CoversPart (e : Node) (used : List Lexeme) : Prop :=
  ∃ pre core post, used = pre ++ (core ++ post) ∧ (∀ t ∈ pre, t.token = .punct .lparen) ∧
    (∃ t ∈ post.head?, t.token ≠ .punct .colon) ∧ core ≠ [] ∧ e.span = cover core ∧
    (Closed true core → Stands e core)

def CoversTest (e : Node) (used : List Lexeme) : Prop :=
  ∀ l test c a, e = .conditional l test c a → CoversPart test used

theorem CoversTest.of_shape {e : Node} {used : List Lexeme} (h : e.shape ≠ .conditional) :
    CoversTest e used := by
  rintro l test c a rfl
  exact absurd rfl h

theorem Covers.front {e : Node} {used : List Lexeme} (h : Covers e used) : FrontAt e.span used := by
  obtain ⟨pre, core, post, hused, hpre, -, hcore, hspan, -⟩ := h
  exact ⟨pre, core, post, hused, hpre, hcore, hspan⟩

theorem Covers.back {e : Node} {used : List Lexeme} (h : Covers e used) : BackAt e.span used := by
  obtain ⟨pre, core, post, hused, -, hpost, hcore, hspan, -⟩ := h
  exact ⟨pre, core, post, hused, hpost, hcore, hspan⟩

theorem frontAt_single (t : Lexeme) : FrontAt t.span [t] :=
  ⟨[], [t], [], rfl, List.forall_mem_nil _, List.cons_ne_nil t [], rfl⟩

theorem backAt_last (ts : List Lexeme) (t : Lexeme) : BackAt t.span (ts ++ [t]) :=
  ⟨ts, [t], [], rfl, List.forall_mem_nil _, List.cons_ne_nil t [], rfl⟩

theorem covers_all {e : Node} {used : List Lexeme} (hused : used ≠ []) (h : e.span = cover used) :
    Covers e used :=
  ⟨[], used, [], by simp, List.forall_mem_nil _, List.forall_mem_nil _, hused, h,
    fun _ => .inl ⟨rfl, rfl⟩⟩

/-- A tree that reaches from its first part to its last covers the tokens if both do: parentheses
that are left out would close in the other part. -/
theorem covers_join {s : Setting} {e : Node} {a b : Span} {nested : Bool} {ts ms us : List Lexeme}
    (hspan : e.span = (s.location (a.merge b)).span) (hfront : FrontAt a ts) (hback : BackAt b us)
    (hts : Closed nested ts) (hms : Closed nested ms) (hus : Closed nested us)
    (horder : InOrder s.lines.length (ts ++ (ms ++ us))) : Covers e (ts ++ (ms ++ us)) := by
  obtain ⟨pre, xs, inner, rfl, hpre, hxs, rfl⟩ := hfront
  obtain ⟨inner', ys, post, rfl, hpost, hys, rfl⟩ := hback
  have hsplit : pre ++ (xs ++ inner) ++ (ms ++ (inner' ++ (ys ++ post))) =
      pre ++ ((xs ++ ((inner ++ (ms ++ inner')) ++ ys)) ++ post) := by
    simp only [List.append_assoc]
  rw [hsplit] at horder ⊢
  have hcore := horder.back.front
  have hne : xs ++ ((inner ++ (ms ++ inner')) ++ ys) ≠ [] :=
    List.append_ne_nil_of_left_ne_nil hxs _
  refine ⟨pre, _, post, rfl, hpre, hpost, hne, ?_, fun hclosed => .inl ?_⟩
  · rw [hspan, hcore.cover_merge _ _ _ hxs hys, hcore.location_cover hne]
  · have hregroup : xs ++ ((inner ++ (ms ++ inner')) ++ ys) =
        (xs ++ inner) ++ (ms ++ (inner' ++ ys)) := by simp only [List.append_assoc]
    rw [hregroup] at hclosed
    obtain rfl := Closed.front_nil hpre hts hclosed
    have hbehind := ((hclosed.cut hts).2.cut hms).2
    rw [← List.append_assoc] at hus
    exact ⟨rfl, Closed.back_nil hpost hbehind hus⟩

theorem Covers.part {e : Node} {used : List Lexeme} (h : Covers e used) (hused : Stands e used)
    {t : Lexeme} (ht : t.token ≠ .punct .colon) (ts : List Lexeme) :
    CoversPart e (used ++ t :: ts) := by
  obtain ⟨pre, core, post, rfl, hpre, hpost, hcore, hspan, halone⟩ := h
  refine ⟨pre, core, post ++ t :: ts, by simp, hpre, ?_, hcore, hspan, fun hclosed => ?_⟩
  · cases post with
    | nil => exact ⟨t, rfl, ht⟩
    | cons u post =>
      refine ⟨u, rfl, ?_⟩
      rw [hpost u List.mem_cons_self]
      exact fun heq => nomatch heq
  · rcases halone hclosed with ⟨rfl, rfl⟩ | halone
    · simpa using hused
    · exact halone

theorem CoversPart.parens {e : Node} {used : List Lexeme} (h : CoversPart e used) (a b : Span) :
    CoversPart e (⟨.punct .lparen, a⟩ :: (used ++ [⟨.punct .rparen, b⟩])) := by
  obtain ⟨pre, core, post, rfl, hpre, ⟨t, ht, hcolon⟩, hcore⟩ := h
  refine ⟨⟨.punct .lparen, a⟩ :: pre, core, post ++ [⟨.punct .rparen, b⟩], by simp,
    List.forall_mem_cons.2 ⟨rfl, hpre⟩, ⟨t, ?_, hcolon⟩, hcore⟩
  rw [List.head?_append, Option.mem_def.1 ht, Option.some_or, Option.mem_def]

theorem Covers.parens {e : Node} {used : List Lexeme} (h : Covers e used) (hstands : Stands e used)
    (a b : Span) : Covers e (⟨.punct .lparen, a⟩ :: (used ++ [⟨.punct .rparen, b⟩])) := by
  obtain ⟨pre, core, post, rfl, hpre, hpost, hcore, hspan, halone⟩ := h
  refine ⟨⟨.punct .lparen, a⟩ :: pre, core, post ++ [⟨.punct .rparen, b⟩], by simp,
    List.forall_mem_cons.2 ⟨rfl, hpre⟩, List.forall_mem_append.2 ⟨hpost, by simp⟩, hcore, hspan,
    fun hclosed => .inr ?_⟩
  rcases halone hclosed with ⟨rfl, rfl⟩ | halone
  · simpa using hstands
  · exact halone

theorem stands_of_binary {s : Setting} {n : Nat} {e : Node} {used rest : List Lexeme}
    (h : parseBinary s 0 n (used ++ rest) = .ok (e, rest)) : Stands e used := by
  obtain ⟨us, heq, hclosed, again⟩ := (ParsesAgain.all n).binary s 0 _ e rest h
  obtain rfl := List.append_cancel_right heq
  obtain ⟨e', he', hrun⟩ := again s used [] (8 * textWeight used + 4) ⟨id, hclosed, rfl⟩
    (.inr ⟨rfl, rfl⟩) (Nat.le_refl _)
  refine ⟨s, 8 * textWeight used + 5, e', [], he', ?_⟩
  change parseBinary s 0 (8 * textWeight used + 4) _ = _ at hrun
  rw [parseExpr, hrun]
  rfl

/-! ## Parses -/

def Cut (s : Setting) (ts : List Lexeme) (e : Node) (rest : List Lexeme) : Prop :=
  ∃ used, ts = used ++ rest ∧ Closed s.nested used ∧ Covers e used ∧ CoversTest e used

theorem Cut.join {s : Setting} {ts rest : List Lexeme} {left e : Node} {b : Span}
    (ms us : List Lexeme) (h : Cut s ts left (ms ++ (us ++ rest)))
    (horder : InOrder s.lines.length ts)
    (hms : Closed s.nested ms) (hus : Closed s.nested us) (hback : BackAt b us)
    (hspan : e.span = (s.location (left.span.merge b)).span)
    (hshape : e.shape ≠ .conditional) : Cut s ts e rest := by
  obtain ⟨used, rfl, hused, hcovers, -⟩ := h
  refine ⟨used ++ (ms ++ us), by simp, hused.append (hms.append hus), ?_, .of_shape hshape⟩
  rw [← List.append_assoc ms, ← List.append_assoc] at horder
  exact covers_join hspan hcovers.front hback hused hms hus horder.front

/-- What the parser's functions leave covered with a given fuel. The loops are told what the operand
that they start with covers. -/
structure CoversTokens (n : Nat) : Prop where
  expr : ∀ s ts e rest, InOrder s.lines.length ts → parseExpr s n ts = .ok (e, rest) →
    Cut s ts e rest
  binary : ∀ s least ts e rest, InOrder s.lines.length ts →
    parseBinary s least n ts = .ok (e, rest) → Cut s ts e rest
  operators : ∀ s least all left ts e rest, InOrder s.lines.length all → Cut s all left ts →
    parseOperators s least n left ts = .ok (e, rest) → Cut s all e rest
  unary : ∀ s ts e rest, InOrder s.lines.length ts → parseUnary s n ts = .ok (e, rest) →
    Cut s ts e rest
  member : ∀ s ts e rest, InOrder s.lines.length ts → parseMember s n ts = .ok (e, rest) →
    Cut s ts e rest
  accesses : ∀ s all object ts e rest, InOrder s.lines.length all → Cut s all object ts →
    parseAccesses s n object ts = .ok (e, rest) → Cut s all e rest
  primary : ∀ s ts e rest, InOrder s.lines.length ts → parsePrimary s n ts = .ok (e, rest) →
    Cut s ts e rest

namespace CoversTokens

theorem zero : CoversTokens 0 where
  expr _ _ _ _ _ h := by rw [parseExpr] at h; cases h
  binary _ _ _ _ _ _ h := by rw [parseBinary] at h; cases h
  operators _ _ _ _ _ _ _ _ _ h := by rw [parseOperators] at h; cases h
  unary _ _ _ _ _ h := by rw [parseUnary] at h; cases h
  member _ _ _ _ _ h := by rw [parseMember] at h; cases h
  accesses _ _ _ _ _ _ _ _ h := by rw [parseAccesses] at h; cases h
  primary _ _ _ _ _ h := by rw [parsePrimary] at h; cases h

variable {n : Nat} (ih : CoversTokens n) {s : Setting} {ts rest : List Lexeme} {e : Node}

include ih

theorem expr_succ (horder : InOrder s.lines.length ts)
    (h : parseExpr s (n + 1) ts = .ok (e, rest)) : Cut s ts e rest := by
  rw [parseExpr] at h
  obtain ⟨⟨test, behind⟩, htest, h₁⟩ := bind_eq_ok.1 h
  have hcut := ih.binary s 0 ts test behind horder htest
  dsimp only at h₁
  split_ifs at h₁ with hquestion
  · obtain ⟨us, rfl, hus, hcovers, -⟩ := hcut
    obtain ⟨a, ts, rfl⟩ := exists_of_startsWith hquestion
    obtain ⟨⟨x, behind⟩, hx, h₂⟩ := bind_eq_ok.1 h₁
    obtain ⟨vs, rfl, hvs, -, -⟩ := ih.expr s ts x behind horder.back.tail hx
    obtain ⟨⟨b, ts⟩, hcolon, h₃⟩ := bind_eq_ok.1 h₂
    obtain rfl := mark_eq_ok hcolon
    obtain ⟨⟨y, behind⟩, hy, h₄⟩ := bind_eq_ok.1 h₃
    obtain ⟨ws, rfl, hws, hcoversY, -⟩ := ih.expr s ts y behind horder.back.tail.back.tail hy
    obtain ⟨rfl, rfl⟩ := Prod.mk.inj (Except.ok.inj h₄)
    have hbetween : Closed s.nested (⟨.punct .question, a⟩ :: (vs ++ [⟨.punct .colon, b⟩])) :=
      .cons rfl (hvs.append (.token rfl))
    have hall : us ++ ⟨.punct .question, a⟩ :: (vs ++ ⟨.punct .colon, b⟩ :: (ws ++ behind)) =
        us ++ ((⟨.punct .question, a⟩ :: (vs ++ [⟨.punct .colon, b⟩])) ++ ws) ++ behind := by simp
    refine ⟨_, hall, hus.append (hbetween.append hws), ?_, ?_⟩
    · rw [hall] at horder
      exact covers_join rfl hcovers.front hcoversY.back hus hbetween hws horder.front
    · rintro l test c a ⟨rfl, rfl, rfl, rfl⟩
      exact hcovers.part (stands_of_binary htest) (t := ⟨.punct .question, _⟩)
        (fun heq => nomatch heq) _
  · obtain ⟨rfl, rfl⟩ := Prod.mk.inj (Except.ok.inj h₁)
    exact hcut

theorem operators_succ {least : Nat} {all : List Lexeme} {left : Node}
    (horder : InOrder s.lines.length all) (hleft : Cut s all left ts)
    (h : parseOperators s least (n + 1) left ts = .ok (e, rest)) : Cut s all e rest := by
  cases ts with
  | nil =>
    obtain ⟨rfl, rfl⟩ := Prod.mk.inj (Except.ok.inj h)
    exact hleft
  | cons t ts =>
    rw [parseOperators] at h
    split at h
    · obtain ⟨rfl, rfl⟩ := Prod.mk.inj (Except.ok.inj h)
      exact hleft
    · rename_i b hb
      split_ifs at h
      · obtain ⟨rfl, rfl⟩ := Prod.mk.inj (Except.ok.inj h)
        exact hleft
      · obtain ⟨⟨right, behind⟩, hright, h₁⟩ := bind_eq_ok.1 h
        have hbehind : InOrder s.lines.length (t :: ts) := by
          obtain ⟨used, rfl, -⟩ := hleft
          exact horder.back
        obtain ⟨us, rfl, hus, hcovers, -⟩ := ih.binary s b.right ts right behind hbehind.tail hright
        refine ih.operators s least all _ behind e rest horder ?_ h₁
        refine Cut.join [t] us hleft horder (.token (depth?_of_binding? hb)) hus hcovers.back ?_ ?_
        · cases b.operator <;> rfl
        · cases b.operator <;> simp [Infix.node, Node.shape]

theorem unary_succ (horder : InOrder s.lines.length ts)
    (h : parseUnary s (n + 1) ts = .ok (e, rest)) : Cut s ts e rest := by
  cases ts with
  | nil =>
    rw [parseUnary] at h
    exact ih.member s [] e rest horder h
  | cons t ts =>
    rw [parseUnary] at h
    split at h
    · rename_i op hop
      obtain ⟨⟨argument, behind⟩, hargument, h₁⟩ := bind_eq_ok.1 h
      obtain ⟨us, rfl, hus, hcovers, -⟩ := ih.unary s ts argument behind horder.tail hargument
      obtain ⟨rfl, rfl⟩ := Prod.mk.inj (Except.ok.inj h₁)
      have hsign := Closed.token (t := t) (depth?_of_unaryOp? hop s.nested)
      refine ⟨t :: us, rfl, hsign.append hus, ?_, .of_shape (by simp [Node.shape])⟩
      rw [← List.singleton_append, ← List.nil_append us]
      exact covers_join rfl (frontAt_single t) hcovers.back hsign (.nil _) hus horder.front
    · exact ih.member s (t :: ts) e rest horder h

theorem accesses_succ {all : List Lexeme} {object : Node} (horder : InOrder s.lines.length all)
    (hobject : Cut s all object ts) (h : parseAccesses s (n + 1) object ts = .ok (e, rest)) :
    Cut s all e rest := by
  generalize hfuel : n + 1 = fuel at h
  fun_cases parseAccesses s fuel object ts with
  | case1 => cases hfuel
  | case2 m object span => cases h
  | case3 m object span t rest name hname =>
    cases hfuel
    simp only [parseAccesses, hname] at h
    refine ih.accesses s all _ _ e _ horder ?_ h
    exact Cut.join [⟨.punct .dot, span⟩] [t] hobject horder (.token rfl)
      (.token (depth?_of_memberName? hname _)) (backAt_last [] t) rfl (by simp [Node.shape])
  | case4 m object span t rest hname => simp [parseAccesses, hname] at h
  | case5 m object span ts =>
    cases hfuel
    rw [parseAccesses] at h
    obtain ⟨⟨index, behind⟩, hindex, h₁⟩ := bind_eq_ok.1 h
    obtain ⟨us, rfl, hus, -⟩ := (ParsesAgain.all n).expr s.inner ts index behind hindex
    obtain ⟨⟨close, ts⟩, hclose, h₂⟩ := bind_eq_ok.1 h₁
    obtain rfl := mark_eq_ok hclose
    refine ih.accesses s all _ _ e _ horder ?_ h₂
    -- The tree reaches to the closing bracket, so no parenthesis is left out at its end.
    refine Cut.join [] (⟨.punct .lbracket, span⟩ :: (us ++ [⟨.punct .rbracket, close⟩]))
      ?_ horder (.nil _) (.enclosed rfl rfl hus)
      (backAt_last (⟨.punct .lbracket, span⟩ :: us) ⟨.punct .rbracket, close⟩) rfl
      (by simp [Node.shape])
    simpa using hobject
  | case6 m object span ts =>
    cases hfuel
    rw [parseAccesses] at h
    obtain ⟨⟨arguments, behind⟩, harguments, h₁⟩ := bind_eq_ok.1 h
    obtain ⟨us, rfl, hus, -⟩ := (ParsesAgain.all n).items s.inner .rparen ts arguments behind
      harguments
    obtain ⟨⟨close, ts⟩, hclose, h₂⟩ := bind_eq_ok.1 h₁
    obtain rfl := mark_eq_ok hclose
    refine ih.accesses s all _ _ e _ horder ?_ h₂
    refine Cut.join [] (⟨.punct .lparen, span⟩ :: (us ++ [⟨.punct .rparen, close⟩]))
      ?_ horder (.nil _) (.enclosed rfl rfl hus)
      (backAt_last (⟨.punct .lparen, span⟩ :: us) ⟨.punct .rparen, close⟩) rfl
      (by simp [Node.shape])
    simpa using hobject
  | case7 =>
    cases hfuel
    simp only [parseAccesses] at h
    obtain ⟨rfl, rfl⟩ := Prod.mk.inj (Except.ok.inj h)
    exact hobject

omit ih in
theorem cut_all (used : List Lexeme) (horder : InOrder s.lines.length (used ++ rest))
    (hused : used ≠ []) (hclosed : Closed s.nested used)
    (hspan : e.span = (s.location (cover used)).span)
    (hshape : e.shape ≠ .conditional) : Cut s (used ++ rest) e rest :=
  ⟨used, rfl, hclosed, covers_all hused (hspan.trans (horder.front.location_cover hused)),
    .of_shape hshape⟩

omit ih in
theorem cut_token {t : Lexeme} {e' : Node}
    (h : (pure (e', ts) : Except Stop (Followed Node)) = .ok (e, rest))
    (horder : InOrder s.lines.length (t :: ts)) (hclosed : Closed s.nested [t])
    (hspan : e'.span = (s.location t.span).span) (hshape : e'.shape ≠ .conditional) :
    Cut s (t :: ts) e rest := by
  obtain ⟨rfl, rfl⟩ := Prod.mk.inj (Except.ok.inj h)
  exact cut_all [t] horder (by simp) hclosed hspan hshape

omit ih in
theorem brackets {o c : Lexeme} {us : List Lexeme}
    (horder : InOrder s.lines.length (o :: (us ++ c :: rest)))
    (hclosed : Closed s.nested (o :: (us ++ [c])))
    (hspan : e.span = (s.location (o.span.merge c.span)).span)
    (hshape : e.shape ≠ .conditional) :
    Cut s (o :: (us ++ c :: rest)) e rest := by
  have hall : o :: (us ++ c :: rest) = (o :: (us ++ [c])) ++ rest := by simp
  rw [hall] at horder ⊢
  refine cut_all _ horder (by simp) hclosed ?_ hshape
  have hmerge := horder.front.cover_merge [o] us [c] (by simp) (by simp)
  rw [hspan]
  exact congrArg (s.location · |>.span) hmerge

theorem primary_succ (horder : InOrder s.lines.length ts)
    (h : parsePrimary s (n + 1) ts = .ok (e, rest)) : Cut s ts e rest := by
  cases ts with
  | nil => cases h
  | cons t ts =>
    obtain ⟨token, span⟩ := t
    unfold parsePrimary at h
    dsimp only at h
    split at h
    · exact cut_token h horder (.token rfl) rfl (by simp [Node.shape])
    · exact cut_token h horder (.token rfl) rfl (by simp [Node.shape])
    · exact cut_token h horder (.token rfl) rfl (by simp [Node.shape])
    · exact cut_token h horder (.token rfl) rfl (by simp [Node.shape])
    · exact cut_token h horder (.token rfl) rfl (by simp [Node.shape])
    · exact cut_token h horder (.token rfl) rfl (by simp [Node.shape])
    · obtain ⟨⟨inner, behind⟩, hinner, h₁⟩ := bind_eq_ok.1 h
      obtain ⟨us, rfl, hus, hcovers, htest⟩ := ih.expr s.inner ts inner behind horder.tail hinner
      obtain ⟨⟨close, ts⟩, hclose, h₂⟩ := bind_eq_ok.1 h₁
      obtain rfl := mark_eq_ok hclose
      obtain ⟨rfl, rfl⟩ := Prod.mk.inj (Except.ok.inj h₂)
      refine ⟨⟨.punct .lparen, span⟩ :: (us ++ [⟨.punct .rparen, close⟩]), by simp,
        .enclosed rfl rfl hus, hcovers.parens ⟨s.inner, n, inner, _, rfl, hinner⟩ span close, ?_⟩
      exact fun l test c a he => (htest l test c a he).parens span close
    · obtain ⟨⟨elements, behind⟩, helements, h₁⟩ := bind_eq_ok.1 h
      obtain ⟨us, rfl, hus, -⟩ := (ParsesAgain.all n).items s.inner .rbracket ts elements behind
        helements
      obtain ⟨⟨close, ts⟩, hclose, h₂⟩ := bind_eq_ok.1 h₁
      obtain rfl := mark_eq_ok hclose
      obtain ⟨rfl, rfl⟩ := Prod.mk.inj (Except.ok.inj h₂)
      exact brackets horder (.enclosed rfl rfl hus) rfl (by simp [Node.shape])
    · obtain ⟨⟨properties, behind⟩, hproperties, h₁⟩ := bind_eq_ok.1 h
      obtain ⟨us, rfl, hus, -⟩ := (ParsesAgain.all n).properties s ts properties behind hproperties
      obtain ⟨⟨close, ts⟩, hclose, h₂⟩ := bind_eq_ok.1 h₁
      obtain rfl := mark_eq_ok hclose
      obtain ⟨rfl, rfl⟩ := Prod.mk.inj (Except.ok.inj h₂)
      exact brackets horder (.enclosed rfl rfl hus) rfl (by simp [Node.shape])
    · obtain ⟨parts, hparts, h₁⟩ := bind_eq_ok.1 h
      exact cut_token h₁ horder (.token rfl) rfl (by simp [Node.shape])
    · cases h

theorem succ : CoversTokens (n + 1) where
  expr _ _ _ _ horder h := ih.expr_succ horder h
  binary s least ts e rest horder h := by
    rw [parseBinary] at h
    obtain ⟨⟨left, behind⟩, hleft, h₁⟩ := bind_eq_ok.1 h
    have hcut := ih.unary s ts left behind horder hleft
    exact ih.operators s least ts left behind e rest horder hcut h₁
  operators _ _ _ _ _ _ _ horder hleft h := ih.operators_succ horder hleft h
  unary _ _ _ _ horder h := ih.unary_succ horder h
  member s ts e rest horder h := by
    rw [parseMember] at h
    obtain ⟨⟨object, behind⟩, hobject, h₁⟩ := bind_eq_ok.1 h
    have hcut := ih.primary s ts object behind horder hobject
    exact ih.accesses s ts object behind e rest horder hcut h₁
  accesses _ _ _ _ _ _ horder hobject h := ih.accesses_succ horder hobject h
  primary _ _ _ _ horder h := ih.primary_succ horder h

omit ih in
theorem all (n : Nat) : CoversTokens n := by
  induction n with
  | zero => exact zero
  | succ n ih => exact ih.succ

end CoversTokens

end VueToSan.Expr
