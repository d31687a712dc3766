import VueToSan.Proofs.LexedParts
import VueToSan.Proofs.OpenBrackets
import VueToSan.Proofs.ParseWritten

/-!
# Repeated parses

A parse that succeeds uses up closed tokens, and it can be repeated: the same tokens with other
spans, in front of something else that ends them, give the same tree up to locations. Bars that are
operators may be forbidden if none stands outside of the brackets.

Fuel is counted along the sources of the tokens: eight for each character are enough.
-/

namespace VueToSan.Expr

open VueToSan.Text

/-! ## Copies of tokens -/

@[simp] theorem textWeight_nil : textWeight [] = 0 := rfl

@[simp] theorem textWeight_cons (t : Lexeme) (ts : List Lexeme) :
    textWeight (t :: ts) = t.token.weight + textWeight ts := rfl

@[simp] theorem textWeight_append (ts us : List Lexeme) :
    textWeight (ts ++ us) = textWeight ts + textWeight us := by
  rw [textWeight, List.map_append, List.sum_append]
  rfl

@[simp] theorem weight_punct (p : Punct) : (Token.punct p).weight = 1 := rfl

theorem one_le_weight (t : Token) : 1 ≤ t.weight := by
  cases t <;> simp [Token.weight]

/-- Tokens that were parsed where bars are operators or not, and a copy of them in a setting where
bars may be operators only if they were. -/
structure Copies (nested : Bool) (used : List Lexeme) (s : Setting) (us : List Lexeme) : Prop where
  flag : s.nested = true → nested = true
  closed : Closed s.nested used
  tokens : us.map (·.token) = used.map (·.token)

namespace Copies

variable {nested : Bool} {s : Setting} {ts us vs : List Lexeme} {t o c : Lexeme}

theorem append (h : Copies nested (ts ++ vs) s us) (hts : Closed nested ts) :
    ∃ us₁ us₂, us = us₁ ++ us₂ ∧ Copies nested ts s us₁ ∧ Copies nested vs s us₂ := by
  obtain ⟨hfront, hback⟩ := h.closed.cut hts
  have htokens := h.tokens
  rw [List.map_append] at htokens
  obtain ⟨us₁, us₂, rfl, h₁, h₂⟩ := List.map_eq_append_iff.1 htokens
  exact ⟨us₁, us₂, rfl, ⟨h.flag, hfront, h₁⟩, ⟨h.flag, hback, h₂⟩⟩

theorem cons (h : Copies nested (t :: vs) s us) (ht : Closed nested [t]) :
    ∃ span us', us = ⟨t.token, span⟩ :: us' ∧ Copies nested vs s us' := by
  rw [← List.singleton_append] at h
  obtain ⟨us₁, us₂, rfl, h₁, h₂⟩ := h.append ht
  obtain ⟨span, rfl⟩ := exists_onlyLexeme h₁.tokens
  exact ⟨span, us₂, rfl, h₂⟩

theorem enclosed (h : Copies nested (o :: (ts ++ [c])) s us) (hts : Closed true ts) :
    ∃ a us' b, us = ⟨o.token, a⟩ :: (us' ++ [⟨c.token, b⟩]) ∧ Copies true ts s.inner us' := by
  have htokens := h.tokens
  rw [List.map_cons, List.map_append] at htokens
  obtain ⟨a, us, b, rfl, hinner⟩ := exists_enclosedLexemes htokens
  exact ⟨a, us, b, rfl, ⟨fun _ => rfl, hts, hinner⟩⟩

theorem inner (h : Copies nested ts s us) : Copies true ts s.inner us where
  flag _ := rfl
  closed := h.closed.inside
  tokens := h.tokens

end Copies

/-! ## Ends -/

def Token.isDivider : Token → Bool
  | .punct .comma | .punct .rparen | .punct .rbracket | .punct .rbrace => true
  | _ => false

/-- What stands behind a copy ends it as what stands behind the tokens does. Where `cut` is true it
may also be nothing, or start with a divider. -/
def EndsAlike (cut : Bool) (rest rest' : List Lexeme) : Prop :=
  rest'.head?.map (·.token) = rest.head?.map (·.token) ∨
    cut = true ∧ rest'.head?.all (·.token.isDivider) = true

theorem EndsAlike.same {rest rest' : List Lexeme} (h : EndsAlike false rest rest') :
    rest'.head?.map (·.token) = rest.head?.map (·.token) :=
  h.resolve_right fun hcut => absurd hcut.1 Bool.false_ne_true

theorem EndsAlike.weaken {cut : Bool} {rest rest' : List Lexeme} (h : EndsAlike false rest rest') :
    EndsAlike cut rest rest' := .inl h.same

theorem startsWith_head {rest rest' : List Lexeme}
    (h : rest'.head?.map (·.token) = rest.head?.map (·.token)) (p : Punct) :
    startsWith p rest' = startsWith p rest := by
  cases rest with
  | nil =>
    obtain rfl : rest' = [] := by simpa using h
    rfl
  | cons t rest =>
    cases rest' with
    | nil => cases h
    | cons t' rest' =>
      obtain ⟨token, span⟩ := t
      obtain ⟨token', span'⟩ := t'
      obtain rfl : token' = token := by simpa using h
      cases token' <;> rfl

theorem exists_of_startsWith {p : Punct} {ts : List Lexeme} (h : startsWith p ts = true) :
    ∃ span rest, ts = ⟨.punct p, span⟩ :: rest := by
  unfold startsWith at h
  split at h
  · rename_i q span rest
    obtain rfl : p = q := by simpa using h
    exact ⟨span, rest, rfl⟩
  · cases h

theorem EndsAlike.startsWith {cut : Bool} {rest rest' : List Lexeme}
    (h : EndsAlike cut rest rest') {p : Punct} (hp : startsWith p rest = false)
    (hdivider : cut = true → (Token.punct p).isDivider = false) : startsWith p rest' = false := by
  rcases h with h | ⟨hcut, h⟩
  · rw [startsWith_head h, hp]
  · rw [Bool.eq_false_iff]
    intro hstart
    obtain ⟨span, ts, rfl⟩ := exists_of_startsWith hstart
    rw [List.head?_cons, Option.all_some, hdivider hcut] at h
    cases h

theorem mark_eq_ok {s : Setting} {p : Punct} {ts rest : List Lexeme} {span : Span}
    (h : s.mark p ts = .ok (span, rest)) : ts = ⟨.punct p, span⟩ :: rest := by
  unfold Setting.mark at h
  split at h
  · split_ifs at h with hp
    obtain ⟨rfl, rfl⟩ := Prod.mk.inj (Except.ok.inj h)
    rw [hp]
  · cases h

theorem EndsAlike.append {cut : Bool} {rest rest' ts us : List Lexeme}
    (h : EndsAlike cut rest rest') (hus : us.map (·.token) = ts.map (·.token)) :
    EndsAlike cut (ts ++ rest) (us ++ rest') := by
  cases ts with
  | nil =>
    obtain rfl := List.map_eq_nil_iff.1 hus
    exact h
  | cons t ts =>
    obtain ⟨u, us, rfl, hu, -⟩ := List.map_eq_cons_iff.1 hus
    exact .inl (congrArg some hu)

theorem EndsAlike.forall_head {cut : Bool} {rest rest' : List Lexeme}
    (h : EndsAlike cut rest rest') {P : Token → Prop} (hP : ∀ t ∈ rest.head?, P t.token)
    (hdivider : ∀ t : Token, t.isDivider = true → P t) : ∀ t ∈ rest'.head?, P t.token := by
  intro t' ht'
  rcases h with h | ⟨-, h⟩
  · rw [Option.mem_def] at ht'
    rw [ht', Option.map_some] at h
    obtain ⟨t, ht, htoken⟩ := Option.map_eq_some_iff.1 h.symm
    rw [← htoken]
    exact hP t ht
  · rw [Option.mem_def] at ht'
    rw [ht', Option.all_some] at h
    exact hdivider _ h

/-! ## Tokens that are no brackets -/

section Tokens

variable {t : Token} {nested flag : Bool} {b : Binding}

theorem depth?_of_binding? (h : t.binding? nested = some b) : t.depth? nested 0 = some 0 := by
  cases t with
  | punct p =>
    cases p <;> first | rfl | cases h | skip
    cases nested with
    | true => rfl
    | false => cases h
  | _ => rfl

/-- An operator is one in a copy too, since a bar outside of brackets is not copied to where it is
none. -/
theorem binding?_copy (h : t.binding? nested = some b) (hflag : flag = true → nested = true)
    (hclosed : t.depth? flag 0 = some 0) : t.binding? flag = some b := by
  cases t with
  | punct p =>
    cases p <;> first | exact h | skip
    cases flag with
    | true =>
      rw [hflag rfl] at h
      exact h
    | false => cases hclosed
  | keyword word => cases word <;> exact h
  | _ => exact h

theorem binding?_of_false (h : t.binding? false = some b) : t.binding? nested = some b := by
  cases t with
  | punct p => cases p <;> first | exact h | cases h
  | keyword word => cases word <;> exact h
  | _ => exact h

theorem binding?_stop {least : Nat} (h : ∀ b, t.binding? nested = some b → b.left < least)
    (hflag : flag = true → nested = true) : ∀ b, t.binding? flag = some b → b.left < least := by
  intro b hb
  cases flag with
  | true => exact h b (by rw [hflag rfl]; exact hb)
  | false => exact h b (binding?_of_false hb)

theorem depth?_of_unaryOp? {op : UnaryOp} (h : t.unaryOp? = some op) (nested : Bool) :
    t.depth? nested 0 = some 0 := by
  cases t with
  | punct p => cases p <;> first | rfl | cases h
  | _ => rfl

theorem depth?_of_memberName? {name : String} (h : t.memberName? = some name) (nested : Bool) :
    t.depth? nested 0 = some 0 := by
  cases t with
  | punct p => cases h
  | _ => rfl

theorem punct_of_isDivider (h : t.isDivider = true) :
    t = .punct .comma ∨ t = .punct .rparen ∨ t = .punct .rbracket ∨ t = .punct .rbrace := by
  unfold Token.isDivider at h
  split at h <;> simp_all

theorem binding?_divider (h : t.isDivider = true) : t.binding? nested = none := by
  rcases punct_of_isDivider h with rfl | rfl | rfl | rfl <;> rfl

theorem unaryOp?_divider (h : t.isDivider = true) : t.unaryOp? = none := by
  rcases punct_of_isDivider h with rfl | rfl | rfl | rfl <;> rfl

theorem opensAccess_divider (h : t.isDivider = true) : t.opensAccess = false := by
  rcases punct_of_isDivider h with rfl | rfl | rfl | rfl <;> rfl

theorem opensAccess_iff : t.opensAccess = true ↔
    t = .punct .dot ∨ t = .punct .lbracket ∨ t = .punct .lparen := by
  cases t with
  | punct p => cases p <;> simp [Token.opensAccess]
  | _ => simp [Token.opensAccess]

end Tokens

/-! ## Repetition -/

variable {α β : Type}

def Repeats (view : α → β) (parser : Setting → Nat → List Lexeme → Except Stop (Followed α))
    (extra : Nat) (cut nested : Bool) (used rest : List Lexeme) (a : α) : Prop :=
  ∀ s us rest' m, Copies nested used s us → EndsAlike cut rest rest' →
    8 * textWeight used + extra ≤ m →
    ∃ a', view a' = view a ∧ parser s m (us ++ rest') = .ok (a', rest')

/-- A parse has used up closed tokens, and can be repeated on them. -/
def Again (view : α → β) (parser : Setting → Nat → List Lexeme → Except Stop (Followed α))
    (extra : Nat) (cut : Bool) (s : Setting) (ts : List Lexeme) (a : α) (rest : List Lexeme) :
    Prop :=
  ∃ used, ts = used ++ rest ∧ Closed s.nested used ∧
    Repeats view parser extra cut s.nested used rest a

/-- A loop that starts from an operand has used up closed tokens, and can be repeated on them from
any copy of the operand. -/
def AgainFrom (loop : Node → Setting → Nat → List Lexeme → Except Stop (Followed Node))
    (s : Setting) (start : Node) (ts : List Lexeme) (e : Node) (rest : List Lexeme) : Prop :=
  ∃ used, ts = used ++ rest ∧ Closed s.nested used ∧
    ∀ start' : Node, start'.unlocated = start.unlocated →
      Repeats Node.unlocated (loop start') 1 true s.nested used rest e

theorem Again.weaken {view : α → β}
    {parser : Setting → Nat → List Lexeme → Except Stop (Followed α)} {extra : Nat} {cut : Bool}
    {s : Setting} {ts rest : List Lexeme} {a : α} (h : Again view parser extra cut s ts a rest) :
    Again view parser extra false s ts a rest := by
  obtain ⟨used, hused, hclosed, again⟩ := h
  exact ⟨used, hused, hclosed,
    fun s' us rest' m hcopy hend => again s' us rest' m hcopy hend.weaken⟩

theorem Again.enclosed {view : α → β}
    {parser : Setting → Nat → List Lexeme → Except Stop (Followed α)} {extra : Nat} {cut : Bool}
    {s : Setting} {ts rest : List Lexeme} {x : α} {c : Lexeme} (o : Lexeme)
    (h : Again view parser extra cut s.inner ts x (c :: rest)) (hextra : extra ≤ 15)
    (ho : o.token.depth? s.nested 0 = some 1) (hc : c.token.depth? s.nested 1 = some 0) :
    ∃ us, ts = us ++ c :: rest ∧ Closed s.nested (o :: (us ++ [c])) ∧
      ∀ s' copy rest' m, Copies s.nested (o :: (us ++ [c])) s' copy →
        8 * textWeight (o :: (us ++ [c])) ≤ m →
        ∃ k a us' b x', m = k + 1 ∧ copy = ⟨o.token, a⟩ :: (us' ++ [⟨c.token, b⟩]) ∧
          view x' = view x ∧
          parser s'.inner k (us' ++ ⟨c.token, b⟩ :: rest') = .ok (x', ⟨c.token, b⟩ :: rest') := by
  obtain ⟨us, hus, hclosed, again⟩ := h
  refine ⟨us, hus, .enclosed ho hc hclosed, fun s' copy rest' m hcopy hm => ?_⟩
  obtain ⟨a, us', b, hsplit, hus'⟩ := hcopy.enclosed hclosed
  have hopen := one_le_weight o.token
  have hshut := one_le_weight c.token
  simp only [textWeight_cons, textWeight_append, textWeight_nil] at hm
  obtain ⟨k, rfl⟩ : ∃ k, m = k + 1 := ⟨m - 1, by omega⟩
  obtain ⟨x', hx', hrun⟩ := again s'.inner us' (⟨c.token, b⟩ :: rest') k hus' (.inl rfl) (by omega)
  exact ⟨k, a, us', b, x', rfl, hsplit, hx', hrun⟩

def Separates (close : Punct) (item : Setting → Nat → List Lexeme → Except Stop (Followed α))
    (list : Setting → Nat → List Lexeme → Except Stop (Followed (List α))) : Prop :=
  ∀ s n ts, list s (n + 1) ts =
    if startsWith close ts then .ok ([], ts)
    else do
      let (x, ts) ← item s n ts
      if startsWith .comma ts then
        let (xs, ts) ← list s n ts.tail
        return (x :: xs, ts)
      else return ([x], ts)

theorem Separates.again {close : Punct}
    {item : Setting → Nat → List Lexeme → Except Stop (Followed α)}
    {list : Setting → Nat → List Lexeme → Except Stop (Followed (List α))} {view : α → β}
    {extra n : Nat} {s : Setting} {ts rest : List Lexeme} {xs : List α}
    (hlist : Separates close item list)
    (hitem : ∀ ts x rest, item s n ts = .ok (x, rest) → Again view item extra false s ts x rest)
    (hrest : ∀ ts xs rest, list s n ts = .ok (xs, rest) →
      Again (List.map view) list (extra + 1) false s ts xs rest)
    (h : list s (n + 1) ts = .ok (xs, rest)) :
    Again (List.map view) list (extra + 1) false s ts xs rest := by
  rw [hlist] at h
  split_ifs at h with hclose
  · obtain ⟨rfl, rfl⟩ := Prod.mk.inj (Except.ok.inj h)
    refine ⟨[], rfl, .nil _, fun s' copy rest' m hcopy hend hm => ?_⟩
    obtain rfl := List.map_eq_nil_iff.1 hcopy.tokens
    obtain ⟨m, rfl⟩ : ∃ k, m = k + 1 := ⟨m - 1, by omega⟩
    have hclose' : startsWith close rest' = true := by rw [startsWith_head hend.same, hclose]
    exact ⟨[], rfl, by rw [hlist, List.nil_append, if_pos hclose']⟩
  · obtain ⟨⟨x, behind⟩, hx, h₁⟩ := bind_eq_ok.1 h
    -- The first item is repeated in front of a comma, or in front of what ends the copy.
    obtain ⟨us, rfl, hus, again⟩ := hitem ts x behind hx
    dsimp only at h₁
    split_ifs at h₁ with hcomma
    · obtain ⟨a, ts, rfl⟩ := exists_of_startsWith hcomma
      obtain ⟨⟨xs, behind⟩, hxs, h₂⟩ := bind_eq_ok.1 h₁
      obtain ⟨vs, rfl, hvs, againRest⟩ := hrest ts xs behind hxs
      obtain ⟨rfl, rfl⟩ := Prod.mk.inj (Except.ok.inj h₂)
      refine ⟨us ++ ⟨.punct .comma, a⟩ :: vs, by simp, hus.append (.cons rfl hvs), ?_⟩
      intro s' copy rest' m hcopy hend hm
      have hclose' : startsWith close (copy ++ rest') = false := by
        have hsame := EndsAlike.append hend hcopy.tokens
        rw [startsWith_head hsame.same, List.append_assoc]
        exact Bool.eq_false_iff.2 hclose
      obtain ⟨us', copy, rfl, hus', hcopy₁⟩ := hcopy.append hus
      obtain ⟨a', vs', rfl, hvs'⟩ := hcopy₁.cons (.token rfl)
      simp only [textWeight_append, textWeight_cons, weight_punct] at hm
      obtain ⟨m, rfl⟩ : ∃ k, m = k + 1 := ⟨m - 1, by omega⟩
      obtain ⟨x', hx', hrun⟩ := again s' us' (⟨.punct .comma, a'⟩ :: (vs' ++ rest')) m hus'
        (.inl rfl) (by omega)
      obtain ⟨xs', hxs', hrunRest⟩ := againRest s' vs' rest' m hvs' hend (by omega)
      refine ⟨x' :: xs', by rw [List.map_cons, List.map_cons, hx', hxs'], ?_⟩
      rw [List.append_assoc, List.cons_append] at hclose' ⊢
      rw [hlist]
      simp [hclose', hrun, startsWith_punct, hrunRest]
    · obtain ⟨rfl, rfl⟩ := Prod.mk.inj (Except.ok.inj h₁)
      refine ⟨us, rfl, hus, fun s' copy rest' m hcopy hend hm => ?_⟩
      have hclose' : startsWith close (copy ++ rest') = false := by
        rw [startsWith_head (hend.append hcopy.tokens).same]
        exact Bool.eq_false_iff.2 hclose
      obtain ⟨m, rfl⟩ : ∃ k, m = k + 1 := ⟨m - 1, by omega⟩
      obtain ⟨x', hx', hrun⟩ := again s' copy rest' m hcopy hend (by omega)
      refine ⟨[x'], by rw [List.map_singleton, List.map_singleton, hx'], ?_⟩
      rw [hlist]
      simp [hclose', hrun, hend.startsWith (Bool.eq_false_iff.2 hcomma) (fun hcut => nomatch hcut)]

theorem unlocatedList_eq_map (es : List Node) : unlocatedList es = es.map Node.unlocated := by
  induction es with
  | nil => rfl
  | cons e es ih => rw [unlocatedList, ih, List.map_cons]

theorem unlocatedProperties_eq_map (ps : List Property) :
    unlocatedProperties ps = ps.map Property.unlocated := by
  induction ps with
  | nil => rfl
  | cons p ps ih => rw [unlocatedProperties, ih, List.map_cons]

/-! ## Fuel of templates -/

def piecesFuel : List Piece → Nat
  | [] => 1
  | .text _ _ :: ps => piecesFuel ps + 1
  | .code _ chars :: ps => 8 * chars.length + 6 + piecesFuel ps

theorem piecesFuel_split :
    (∀ offset seen cs, piecesFuel (splitText offset seen cs) ≤ 8 * cs.length + 2) ∧
      ∀ offset seen depth quote cs,
        piecesFuel (splitCode offset seen depth quote cs) ≤ 8 * (seen.length + cs.length) + 8 := by
  apply splitText.mutual_induct
    (fun offset seen cs => piecesFuel (splitText offset seen cs) ≤ 8 * cs.length + 2)
    (fun offset seen depth quote cs =>
      piecesFuel (splitCode offset seen depth quote cs) ≤ 8 * (seen.length + cs.length) + 8)
  all_goals
    intros
    simp_all only [splitText, splitCode, piecesFuel, List.length_cons, List.length_nil,
      List.length_reverse, if_true, if_false]
    omega

theorem piecesFuel_pieces (body : List Char) : piecesFuel (pieces body) ≤ 8 * body.length + 2 :=
  piecesFuel_split.1 0 [] body

/-! ## The functions of the parser -/

def inside (parser : Setting → Nat → List Lexeme → Except Stop (Followed α)) :
    Setting → Nat → List Lexeme → Except Stop (Followed α) := fun s => parser s.inner

/-- What the parser's functions can repeat if they succeed with a given fuel. Properties stand in
braces always. -/
structure ParsesAgain (n : Nat) : Prop where
  expr : ∀ s ts e rest, parseExpr s n ts = .ok (e, rest) →
    Again Node.unlocated parseExpr 5 true s ts e rest
  binary : ∀ s least ts e rest, parseBinary s least n ts = .ok (e, rest) →
    Again Node.unlocated (parseBinary · least) 4 true s ts e rest
  operators : ∀ s least left ts e rest, parseOperators s least n left ts = .ok (e, rest) →
    AgainFrom (fun left s n => parseOperators s least n left) s left ts e rest
  unary : ∀ s ts e rest, parseUnary s n ts = .ok (e, rest) →
    Again Node.unlocated parseUnary 3 true s ts e rest
  member : ∀ s ts e rest, parseMember s n ts = .ok (e, rest) →
    Again Node.unlocated parseMember 2 true s ts e rest
  accesses : ∀ s object ts e rest, parseAccesses s n object ts = .ok (e, rest) →
    AgainFrom (fun object s n => parseAccesses s n object) s object ts e rest
  items : ∀ s close ts es rest, parseItems s close n ts = .ok (es, rest) →
    Again (List.map Node.unlocated) (parseItems · close) 6 false s ts es rest
  primary : ∀ s ts e rest, parsePrimary s n ts = .ok (e, rest) →
    Again Node.unlocated parsePrimary 0 true s ts e rest
  properties : ∀ s ts ps rest, inside parseProperties s n ts = .ok (ps, rest) →
    Again (List.map Property.unlocated) (inside parseProperties) 1 false s.inner ts ps rest
  property : ∀ s ts p rest, inside parseProperty s n ts = .ok (p, rest) →
    Again Property.unlocated (inside parseProperty) 0 false s.inner ts p rest
  keyed : ∀ s span key ts p rest, inside (parseKeyed · · span key) s n ts = .ok (p, rest) →
    ∃ used, ts = used ++ rest ∧ Closed true used ∧
      ∀ span' (key' : Key), key'.unlocated = key.unlocated →
        Repeats Property.unlocated (inside (parseKeyed · · span' key')) 0 false true used rest p
  pieces : ∀ s base ps parts, parsePieces s base n ps = .ok parts →
    ∀ s' base' m, piecesFuel ps ≤ m →
      ∃ parts', unlocatedList parts' = unlocatedList parts ∧ parsePieces s' base' m ps = .ok parts'

namespace ParsesAgain

theorem zero : ParsesAgain 0 where
  expr _ _ _ _ h := by rw [parseExpr] at h; cases h
  binary _ _ _ _ _ h := by rw [parseBinary] at h; cases h
  operators _ _ _ _ _ _ h := by rw [parseOperators] at h; cases h
  unary _ _ _ _ h := by rw [parseUnary] at h; cases h
  member _ _ _ _ h := by rw [parseMember] at h; cases h
  accesses _ _ _ _ _ h := by rw [parseAccesses] at h; cases h
  items _ _ _ _ _ h := by rw [parseItems] at h; cases h
  primary _ _ _ _ h := by rw [parsePrimary] at h; cases h
  properties _ _ _ _ h := by rw [inside, parseProperties] at h; cases h
  property _ _ _ _ h := by rw [inside, parseProperty] at h; cases h
  keyed _ _ _ _ _ _ h := by rw [inside, parseKeyed] at h; cases h
  pieces _ _ _ _ h := by rw [parsePieces] at h; cases h

variable {n : Nat} (ih : ParsesAgain n) {s : Setting}

include ih

theorem expr_succ {ts rest : List Lexeme} {e : Node} (h : parseExpr s (n + 1) ts = .ok (e, rest)) :
    Again Node.unlocated parseExpr 5 true s ts e rest := by
  rw [parseExpr] at h
  obtain ⟨⟨test, behind⟩, htest, h₁⟩ := bind_eq_ok.1 h
  obtain ⟨us, rfl, hus, again⟩ := ih.binary s 0 ts test behind htest
  dsimp only at h₁
  split_ifs at h₁ with hquestion
  · obtain ⟨a, ts, rfl⟩ := exists_of_startsWith hquestion
    obtain ⟨⟨x, behind⟩, hx, h₂⟩ := bind_eq_ok.1 h₁
    obtain ⟨vs, rfl, hvs, againX⟩ := ih.expr s ts x behind hx
    obtain ⟨⟨b, ts⟩, hcolon, h₃⟩ := bind_eq_ok.1 h₂
    obtain rfl := mark_eq_ok hcolon
    obtain ⟨⟨y, behind⟩, hy, h₄⟩ := bind_eq_ok.1 h₃
    obtain ⟨ws, rfl, hws, againY⟩ := ih.expr s ts y behind hy
    obtain ⟨rfl, rfl⟩ := Prod.mk.inj (Except.ok.inj h₄)
    -- The copy falls into copies of the three parts, each of them followed by a token that ends it.
    refine ⟨us ++ ⟨.punct .question, a⟩ :: (vs ++ ⟨.punct .colon, b⟩ :: ws), by simp,
      hus.append (.cons rfl (hvs.append (.cons rfl hws))), ?_⟩
    intro s' copy rest' m hcopy hend hm
    obtain ⟨us', copy, rfl, hus', hcopy₁⟩ := hcopy.append hus
    obtain ⟨a', copy, rfl, hcopy₂⟩ := hcopy₁.cons (.token rfl)
    obtain ⟨vs', copy, rfl, hvs', hcopy₃⟩ := hcopy₂.append hvs
    obtain ⟨b', ws', rfl, hws'⟩ := hcopy₃.cons (.token rfl)
    simp only [textWeight_append, textWeight_cons, weight_punct] at hm
    obtain ⟨m, rfl⟩ : ∃ k, m = k + 1 := ⟨m - 1, by omega⟩
    obtain ⟨t', ht', hrunT⟩ := again s' us'
      (⟨.punct .question, a'⟩ :: (vs' ++ ⟨.punct .colon, b'⟩ :: (ws' ++ rest'))) m hus' (.inl rfl)
      (by omega)
    obtain ⟨x', hx', hrunX⟩ := againX s' vs' (⟨.punct .colon, b'⟩ :: (ws' ++ rest')) m hvs'
      (.inl rfl) (by omega)
    obtain ⟨y', hy', hrunY⟩ := againY s' ws' rest' m hws' hend (by omega)
    refine ⟨.conditional (s'.location (t'.span.merge y'.span)) t' x' y',
      by simp [Node.unlocated, ht', hx', hy'], ?_⟩
    simp [parseExpr, hrunT, startsWith_punct, hrunX, hrunY, mark_punct]
  · obtain ⟨rfl, rfl⟩ := Prod.mk.inj (Except.ok.inj h₁)
    refine ⟨us, rfl, hus, fun s' copy rest' m hcopy hend hm => ?_⟩
    obtain ⟨m, rfl⟩ : ∃ k, m = k + 1 := ⟨m - 1, by omega⟩
    obtain ⟨t', ht', hrun⟩ := again s' copy rest' m hcopy hend (by omega)
    refine ⟨t', ht', ?_⟩
    simp [parseExpr, hrun, hend.startsWith (Bool.eq_false_iff.2 hquestion) fun _ => rfl]

theorem binary_succ {least : Nat} {ts rest : List Lexeme} {e : Node}
    (h : parseBinary s least (n + 1) ts = .ok (e, rest)) :
    Again Node.unlocated (parseBinary · least) 4 true s ts e rest := by
  rw [parseBinary] at h
  obtain ⟨⟨left, behind⟩, hleft, h₁⟩ := bind_eq_ok.1 h
  obtain ⟨us, rfl, hus, again⟩ := ih.unary s ts left behind hleft
  obtain ⟨vs, rfl, hvs, againRest⟩ := ih.operators s least left behind e rest h₁
  refine ⟨us ++ vs, by simp, hus.append hvs, fun s' copy rest' m hcopy hend hm => ?_⟩
  obtain ⟨us', vs', rfl, hus', hvs'⟩ := hcopy.append hus
  rw [textWeight_append] at hm
  obtain ⟨m, rfl⟩ : ∃ k, m = k + 1 := ⟨m - 1, by omega⟩
  obtain ⟨left', hleft', hrun⟩ := again s' us' (vs' ++ rest') m hus' (hend.append hvs'.tokens)
    (by omega)
  obtain ⟨e', he', hrunRest⟩ := againRest left' hleft' s' vs' rest' m hvs' hend (by omega)
  exact ⟨e', he', by simp [parseBinary, hrun, hrunRest]⟩

omit ih in
theorem parseUnary_eq_member {m : Nat} {ts : List Lexeme}
    (h : ∀ t ∈ ts.head?, t.token.unaryOp? = none) :
    parseUnary s (m + 1) ts = parseMember s m ts := by
  cases ts with
  | nil => rw [parseUnary]
  | cons t ts => simp [parseUnary, h t rfl]

omit ih in
theorem parseOperators_stop {least m : Nat} {left : Node} {rest : List Lexeme} (s : Setting)
    (h : ∀ t ∈ rest.head?, ∀ b, t.token.binding? s.nested = some b → b.left < least) :
    parseOperators s least (m + 1) left rest = .ok (left, rest) := by
  cases rest with
  | nil => rfl
  | cons t rest =>
    simp only [parseOperators]
    cases hb : t.token.binding? s.nested with
    | none => rfl
    | some b => simp [h t rfl b hb]

theorem operators_succ {least : Nat} {left : Node} {ts rest : List Lexeme} {e : Node}
    (h : parseOperators s least (n + 1) left ts = .ok (e, rest)) :
    AgainFrom (fun left s n => parseOperators s least n left) s left ts e rest := by
  -- Whether the loop stops depends on the first token only, which the copy has as well.
  by_cases hstop : ∀ t ∈ ts.head?, ∀ b, t.token.binding? s.nested = some b → b.left < least
  · rw [parseOperators_stop s hstop] at h
    obtain ⟨rfl, rfl⟩ := Prod.mk.inj (Except.ok.inj h)
    refine ⟨[], rfl, .nil _, fun left' hleft' s' copy rest' m hcopy hend hm => ?_⟩
    obtain rfl := List.map_eq_nil_iff.1 hcopy.tokens
    obtain ⟨m, rfl⟩ : ∃ k, m = k + 1 := ⟨m - 1, by omega⟩
    refine ⟨left', hleft', parseOperators_stop s' ?_⟩
    refine hend.forall_head (P := fun t => ∀ b, t.binding? s'.nested = some b → b.left < least)
      ?_ ?_
    · exact fun t ht => binding?_stop (hstop t ht) hcopy.flag
    · intro t ht b hb
      rw [binding?_divider ht] at hb
      cases hb
  · cases ts with
    | nil => exact absurd (fun t ht => nomatch ht) hstop
    | cons t ts =>
      obtain ⟨b, hb, hleast⟩ : ∃ b, t.token.binding? s.nested = some b ∧ ¬b.left < least := by
        simpa using hstop
      simp only [parseOperators, hb, if_neg hleast] at h
      obtain ⟨⟨right, behind⟩, hright, h₁⟩ := bind_eq_ok.1 h
      obtain ⟨us, rfl, hus, again⟩ := ih.binary s b.right ts right behind hright
      obtain ⟨vs, rfl, hvs, againRest⟩ := ih.operators s least _ behind e rest h₁
      have hoperator := Closed.token (t := t) (depth?_of_binding? hb)
      refine ⟨t :: (us ++ vs), by simp, hoperator.append (hus.append hvs), ?_⟩
      intro left' hleft' s' copy rest' m hcopy hend hm
      have hflag := hcopy.flag
      have hdepth := hcopy.closed.head_of_cons hoperator
      obtain ⟨span, copy, rfl, hcopy₁⟩ := hcopy.cons hoperator
      obtain ⟨us', vs', rfl, hus', hvs'⟩ := hcopy₁.append hus
      rw [textWeight_cons, textWeight_append] at hm
      have hweight := one_le_weight t.token
      obtain ⟨m, rfl⟩ : ∃ k, m = k + 1 := ⟨m - 1, by omega⟩
      have hb' := binding?_copy hb hflag hdepth
      obtain ⟨right', hright', hrun⟩ := again s' us' (vs' ++ rest') m hus' (hend.append hvs'.tokens)
        (by omega)
      obtain ⟨e', he', hrunRest⟩ := againRest
        (b.operator.node (s'.location (left'.span.merge right'.span)) left' right')
        (by rw [node_unlocated, node_unlocated b.operator, hleft', hright'])
        s' vs' rest' m hvs' hend (by omega)
      refine ⟨e', he', ?_⟩
      simp [parseOperators, hb', hleast, hrun, hrunRest]

theorem unary_succ {ts rest : List Lexeme} {e : Node}
    (h : parseUnary s (n + 1) ts = .ok (e, rest)) :
    Again Node.unlocated parseUnary 3 true s ts e rest := by
  by_cases hop : ∀ t ∈ ts.head?, t.token.unaryOp? = none
  · rw [parseUnary_eq_member hop] at h
    obtain ⟨used, rfl, hused, again⟩ := ih.member s ts e rest h
    refine ⟨used, rfl, hused, fun s' copy rest' m hcopy hend hm => ?_⟩
    obtain ⟨m, rfl⟩ : ∃ k, m = k + 1 := ⟨m - 1, by omega⟩
    obtain ⟨e', he', hrun⟩ := again s' copy rest' m hcopy hend (by omega)
    refine ⟨e', he', ?_⟩
    rw [parseUnary_eq_member, hrun]
    exact (hend.append hcopy.tokens).forall_head (P := fun t => t.unaryOp? = none) hop
      fun _ => unaryOp?_divider
  · cases ts with
    | nil => exact absurd (fun t ht => nomatch ht) hop
    | cons t ts =>
      obtain ⟨op, hsome⟩ : ∃ op, t.token.unaryOp? = some op := by
        simpa [Option.ne_none_iff_exists'] using hop
      simp only [parseUnary, hsome] at h
      obtain ⟨⟨argument, behind⟩, hargument, h₁⟩ := bind_eq_ok.1 h
      obtain ⟨us, rfl, hus, again⟩ := ih.unary s ts argument behind hargument
      obtain ⟨rfl, rfl⟩ := Prod.mk.inj (Except.ok.inj h₁)
      have hsign := Closed.token (t := t) (depth?_of_unaryOp? hsome s.nested)
      refine ⟨t :: us, rfl, hsign.append hus, fun s' copy rest' m hcopy hend hm => ?_⟩
      obtain ⟨span, us', rfl, hus'⟩ := hcopy.cons hsign
      rw [textWeight_cons] at hm
      have hweight := one_le_weight t.token
      obtain ⟨m, rfl⟩ : ∃ k, m = k + 1 := ⟨m - 1, by omega⟩
      obtain ⟨a', ha', hrun⟩ := again s' us' rest' m hus' hend (by omega)
      refine ⟨.unary (s'.location (span.merge a'.span)) op a', by simp [Node.unlocated, ha'], ?_⟩
      simp [parseUnary, hsome, hrun]

theorem member_succ {ts rest : List Lexeme} {e : Node}
    (h : parseMember s (n + 1) ts = .ok (e, rest)) :
    Again Node.unlocated parseMember 2 true s ts e rest := by
  rw [parseMember] at h
  obtain ⟨⟨object, behind⟩, hobject, h₁⟩ := bind_eq_ok.1 h
  obtain ⟨us, rfl, hus, again⟩ := ih.primary s ts object behind hobject
  obtain ⟨vs, rfl, hvs, againRest⟩ := ih.accesses s object behind e rest h₁
  refine ⟨us ++ vs, by simp, hus.append hvs, fun s' copy rest' m hcopy hend hm => ?_⟩
  obtain ⟨us', vs', rfl, hus', hvs'⟩ := hcopy.append hus
  rw [textWeight_append] at hm
  obtain ⟨m, rfl⟩ : ∃ k, m = k + 1 := ⟨m - 1, by omega⟩
  obtain ⟨object', hobject', hrun⟩ := again s' us' (vs' ++ rest') m hus' (hend.append hvs'.tokens)
    (by omega)
  obtain ⟨e', he', hrunRest⟩ := againRest object' hobject' s' vs' rest' m hvs' hend (by omega)
  exact ⟨e', he', by simp [parseMember, hrun, hrunRest]⟩

theorem field_access {object : Node} {ts rest : List Lexeme} {e : Node} {a : Span}
    (h : parseAccesses s (n + 1) object (⟨.punct .dot, a⟩ :: ts) = .ok (e, rest)) :
    AgainFrom (fun object s n => parseAccesses s n object) s object
      (⟨.punct .dot, a⟩ :: ts) e rest := by
  cases ts with
  | nil => cases h
  | cons t ts =>
    cases hname : t.token.memberName? with
    | none => simp [parseAccesses, hname] at h
    | some name =>
      simp only [parseAccesses, hname] at h
      obtain ⟨us, rfl, hus, again⟩ := ih.accesses s _ ts e rest h
      have hmember := Closed.token (t := t) (depth?_of_memberName? hname s.nested)
      refine ⟨⟨.punct .dot, a⟩ :: t :: us, rfl, .cons rfl (hmember.append hus), ?_⟩
      intro object' hobject' s' copy rest' m hcopy hend hm
      obtain ⟨a', copy, rfl, hcopy₁⟩ := hcopy.cons (.token rfl)
      obtain ⟨b, us', rfl, hus'⟩ := hcopy₁.cons hmember
      simp only [textWeight_cons, weight_punct] at hm
      obtain ⟨m, rfl⟩ : ∃ k, m = k + 1 := ⟨m - 1, by omega⟩
      obtain ⟨e', he', hrun⟩ := again
        (.field (s'.location (object'.span.merge b)) object' ⟨s'.location b, name⟩)
        (by simp [Node.unlocated, Name.unlocated, hobject']) s' us' rest' m hus' hend (by omega)
      exact ⟨e', he', by simp [parseAccesses, hname, hrun]⟩

theorem index_access {object : Node} {ts rest : List Lexeme} {e : Node} {a : Span}
    (h : parseAccesses s (n + 1) object (⟨.punct .lbracket, a⟩ :: ts) = .ok (e, rest)) :
    AgainFrom (fun object s n => parseAccesses s n object) s object (⟨.punct .lbracket, a⟩ :: ts)
      e rest := by
  rw [parseAccesses] at h
  obtain ⟨⟨index, behind⟩, hindex, h₁⟩ := bind_eq_ok.1 h
  obtain ⟨⟨b, behind⟩, hclose, h₂⟩ := bind_eq_ok.1 h₁
  obtain rfl := mark_eq_ok hclose
  obtain ⟨us, rfl, hbrackets, again⟩ :=
    (ih.expr s.inner ts index _ hindex).enclosed ⟨.punct .lbracket, a⟩ (by decide) rfl rfl
  obtain ⟨vs, rfl, hvs, againRest⟩ := ih.accesses s _ behind e rest h₂
  refine ⟨(⟨.punct .lbracket, a⟩ :: (us ++ [⟨.punct .rbracket, b⟩])) ++ vs, by simp,
    hbrackets.append hvs, fun object' hobject' s' copy rest' m hcopy hend hm => ?_⟩
  obtain ⟨copy, vs', rfl, hcopy₁, hvs'⟩ := hcopy.append hbrackets
  rw [textWeight_append] at hm
  obtain ⟨m, a', us', b', index', rfl, rfl, hindex', hrun⟩ := again s' copy (vs' ++ rest') m hcopy₁
    (by omega)
  rw [textWeight_cons, weight_punct] at hm
  obtain ⟨e', he', hrunRest⟩ := againRest
    (.index (s'.location (object'.span.merge b')) object' index')
    (by simp [Node.unlocated, hobject', hindex']) s' vs' rest' m hvs' hend (by omega)
  exact ⟨e', he', by simp [parseAccesses, hrun, mark_punct, hrunRest]⟩

theorem call_access {object : Node} {ts rest : List Lexeme} {e : Node} {a : Span}
    (h : parseAccesses s (n + 1) object (⟨.punct .lparen, a⟩ :: ts) = .ok (e, rest)) :
    AgainFrom (fun object s n => parseAccesses s n object) s object (⟨.punct .lparen, a⟩ :: ts)
      e rest := by
  rw [parseAccesses] at h
  obtain ⟨⟨arguments, behind⟩, harguments, h₁⟩ := bind_eq_ok.1 h
  obtain ⟨⟨b, behind⟩, hclose, h₂⟩ := bind_eq_ok.1 h₁
  obtain rfl := mark_eq_ok hclose
  obtain ⟨us, rfl, hbrackets, again⟩ :=
    (ih.items s.inner .rparen ts arguments _ harguments).enclosed ⟨.punct .lparen, a⟩
      (by decide) rfl rfl
  obtain ⟨vs, rfl, hvs, againRest⟩ := ih.accesses s _ behind e rest h₂
  refine ⟨(⟨.punct .lparen, a⟩ :: (us ++ [⟨.punct .rparen, b⟩])) ++ vs, by simp,
    hbrackets.append hvs, fun object' hobject' s' copy rest' m hcopy hend hm => ?_⟩
  obtain ⟨copy, vs', rfl, hcopy₁, hvs'⟩ := hcopy.append hbrackets
  rw [textWeight_append] at hm
  obtain ⟨m, a', us', b', arguments', rfl, rfl, harguments', hrun⟩ :=
    again s' copy (vs' ++ rest') m hcopy₁ (by omega)
  rw [textWeight_cons, weight_punct] at hm
  obtain ⟨e', he', hrunRest⟩ := againRest
    (.call (s'.location (object'.span.merge b')) object' arguments')
    (by simp [Node.unlocated, unlocatedList_eq_map, hobject', harguments']) s' vs' rest' m hvs' hend
    (by omega)
  exact ⟨e', he', by simp [parseAccesses, hrun, mark_punct, hrunRest]⟩

omit ih in
theorem parseAccesses_stop {m : Nat} {object : Node} {rest : List Lexeme} (s : Setting)
    (h : ∀ t ∈ rest.head?, t.token.opensAccess = false) :
    parseAccesses s (m + 1) object rest = .ok (object, rest) := by
  cases rest with
  | nil => rfl
  | cons t rest =>
    obtain ⟨token, span⟩ := t
    have hhead : token.opensAccess = false := h _ rfl
    unfold parseAccesses
    split <;> first | rfl | (simp_all [Token.opensAccess])

theorem accesses_succ {object : Node} {ts rest : List Lexeme} {e : Node}
    (h : parseAccesses s (n + 1) object ts = .ok (e, rest)) :
    AgainFrom (fun object s n => parseAccesses s n object) s object ts e rest := by
  by_cases hstop : ∀ t ∈ ts.head?, t.token.opensAccess = false
  · rw [parseAccesses_stop s hstop] at h
    obtain ⟨rfl, rfl⟩ := Prod.mk.inj (Except.ok.inj h)
    refine ⟨[], rfl, .nil _, fun object' hobject' s' copy rest' m hcopy hend hm => ?_⟩
    obtain rfl := List.map_eq_nil_iff.1 hcopy.tokens
    obtain ⟨m, rfl⟩ : ∃ k, m = k + 1 := ⟨m - 1, by omega⟩
    refine ⟨object', hobject', parseAccesses_stop s' ?_⟩
    exact hend.forall_head (P := fun t => t.opensAccess = false) hstop fun _ => opensAccess_divider
  · cases ts with
    | nil => exact absurd (fun t ht => nomatch ht) hstop
    | cons t ts =>
      obtain ⟨token, a⟩ := t
      have hopens : token.opensAccess = true := by simpa using hstop
      rcases opensAccess_iff.1 hopens with rfl | rfl | rfl
      · exact ih.field_access h
      · exact ih.index_access h
      · exact ih.call_access h

theorem items_succ {close : Punct} {ts rest : List Lexeme} {es : List Node}
    (h : parseItems s close (n + 1) ts = .ok (es, rest)) :
    Again (List.map Node.unlocated) (parseItems · close) 6 false s ts es rest := by
  have hlist : Separates close parseExpr (parseItems · close) := by
    intro s n ts
    change parseItems s close (n + 1) ts = _
    rw [parseItems]
  exact hlist.again (fun ts x rest hx => (ih.expr s ts x rest hx).weaken)
    (fun ts xs rest hxs => ih.items s close ts xs rest hxs) h

omit ih in
theorem single_primary (node : Location → Node) {t : Lexeme} {rest : List Lexeme}
    (hnode : ∀ l l', (node l).unlocated = (node l').unlocated)
    (hdepth : t.token.depth? s.nested 0 = some 0)
    (hrun : ∀ (s : Setting) span rest m,
      parsePrimary s (m + 1) (⟨t.token, span⟩ :: rest) = .ok (node (s.location span), rest)) :
    Again Node.unlocated parsePrimary 0 true s (t :: rest) (node (s.location t.span)) rest := by
  refine ⟨[t], rfl, .token hdepth, fun s' copy rest' m hcopy hend hm => ?_⟩
  obtain ⟨span, us, rfl, hus⟩ := hcopy.cons (.token hdepth)
  obtain rfl := List.map_eq_nil_iff.1 hus.tokens
  have hweight := one_le_weight t.token
  rw [textWeight_cons] at hm
  obtain ⟨m, rfl⟩ : ∃ k, m = k + 1 := ⟨m - 1, by omega⟩
  exact ⟨node (s'.location span), hnode _ _, hrun s' span rest' m⟩

theorem parens_primary {ts rest : List Lexeme} {e : Node} {a : Span}
    (h : (do
      let (inner, ts) ← parseExpr s.inner n ts
      let (_, ts) ← s.mark .rparen ts
      return (inner, ts)) = Except.ok (e, rest)) :
    Again Node.unlocated parsePrimary 0 true s (⟨.punct .lparen, a⟩ :: ts) e rest := by
  obtain ⟨⟨inner, behind⟩, hinner, h₁⟩ := bind_eq_ok.1 h
  obtain ⟨⟨b, behind⟩, hclose, h₂⟩ := bind_eq_ok.1 h₁
  obtain rfl := mark_eq_ok hclose
  obtain ⟨rfl, rfl⟩ := Prod.mk.inj (Except.ok.inj h₂)
  obtain ⟨us, rfl, hbrackets, again⟩ :=
    (ih.expr s.inner ts inner _ hinner).enclosed ⟨.punct .lparen, a⟩ (by decide) rfl rfl
  refine ⟨⟨.punct .lparen, a⟩ :: (us ++ [⟨.punct .rparen, b⟩]), by simp, hbrackets, ?_⟩
  intro s' copy rest' m hcopy hend hm
  obtain ⟨m, a', us', b', inner', rfl, rfl, hinner', hrun⟩ := again s' copy rest' m hcopy hm
  exact ⟨inner', hinner', by simp [parsePrimary, hrun, mark_punct]⟩

theorem array_primary {ts rest : List Lexeme} {e : Node} {a : Span}
    (h : (do
      let (elements, ts) ← parseItems s.inner .rbracket n ts
      let (close, ts) ← s.mark .rbracket ts
      return (.array (s.location (a.merge close)) elements, ts)) = Except.ok (e, rest)) :
    Again Node.unlocated parsePrimary 0 true s (⟨.punct .lbracket, a⟩ :: ts) e rest := by
  obtain ⟨⟨elements, behind⟩, helements, h₁⟩ := bind_eq_ok.1 h
  obtain ⟨⟨b, behind⟩, hclose, h₂⟩ := bind_eq_ok.1 h₁
  obtain rfl := mark_eq_ok hclose
  obtain ⟨rfl, rfl⟩ := Prod.mk.inj (Except.ok.inj h₂)
  obtain ⟨us, rfl, hbrackets, again⟩ :=
    (ih.items s.inner .rbracket ts elements _ helements).enclosed ⟨.punct .lbracket, a⟩
      (by decide) rfl rfl
  refine ⟨⟨.punct .lbracket, a⟩ :: (us ++ [⟨.punct .rbracket, b⟩]), by simp, hbrackets, ?_⟩
  intro s' copy rest' m hcopy hend hm
  obtain ⟨m, a', us', b', elements', rfl, rfl, helements', hrun⟩ := again s' copy rest' m hcopy hm
  exact ⟨.array (s'.location (a'.merge b')) elements',
    by simp [Node.unlocated, unlocatedList_eq_map, helements'],
    by simp [parsePrimary, hrun, mark_punct]⟩

theorem object_primary {ts rest : List Lexeme} {e : Node} {a : Span}
    (h : (do
      let (properties, ts) ← parseProperties s.inner n ts
      let (close, ts) ← s.mark .rbrace ts
      return (.object (s.location (a.merge close)) properties, ts)) = Except.ok (e, rest)) :
    Again Node.unlocated parsePrimary 0 true s (⟨.punct .lbrace, a⟩ :: ts) e rest := by
  obtain ⟨⟨properties, behind⟩, hproperties, h₁⟩ := bind_eq_ok.1 h
  obtain ⟨⟨b, behind⟩, hclose, h₂⟩ := bind_eq_ok.1 h₁
  obtain rfl := mark_eq_ok hclose
  obtain ⟨rfl, rfl⟩ := Prod.mk.inj (Except.ok.inj h₂)
  obtain ⟨us, rfl, hbrackets, again⟩ :=
    (ih.properties s ts properties _ hproperties).enclosed ⟨.punct .lbrace, a⟩ (by decide) rfl rfl
  refine ⟨⟨.punct .lbrace, a⟩ :: (us ++ [⟨.punct .rbrace, b⟩]), by simp, hbrackets, ?_⟩
  intro s' copy rest' m hcopy hend hm
  obtain ⟨m, a', us', b', properties', rfl, rfl, hproperties', hrun⟩ :=
    again s' copy rest' m hcopy hm
  change parseProperties s'.inner m _ = _ at hrun
  exact ⟨.object (s'.location (a'.merge b')) properties',
    by simp [Node.unlocated, unlocatedProperties_eq_map, hproperties'],
    by simp [parsePrimary, hrun, mark_punct]⟩

theorem template_primary {ts rest : List Lexeme} {e : Node} {a : Span} {body : String}
    (h : (do
      let parts ← parsePieces s (a.start + 1) n (Expr.pieces body.toList)
      return (.template (s.location a) parts, ts)) = Except.ok (e, rest)) :
    Again Node.unlocated parsePrimary 0 true s (⟨.template body, a⟩ :: ts) e rest := by
  obtain ⟨parts, hparts, h₁⟩ := bind_eq_ok.1 h
  obtain ⟨rfl, rfl⟩ := Prod.mk.inj (Except.ok.inj h₁)
  refine ⟨[⟨.template body, a⟩], rfl, .token rfl, fun s' copy rest' m hcopy hend hm => ?_⟩
  obtain ⟨a', us, rfl, hus⟩ := hcopy.cons (.token rfl)
  obtain rfl := List.map_eq_nil_iff.1 hus.tokens
  simp only [textWeight_cons, textWeight_nil, Token.weight] at hm
  obtain ⟨m, rfl⟩ : ∃ k, m = k + 1 := ⟨m - 1, by omega⟩
  have hfuel := piecesFuel_pieces body.toList
  obtain ⟨parts', hparts', hrun⟩ := ih.pieces s _ _ parts hparts s' (a'.start + 1) m (by omega)
  exact ⟨.template (s'.location a') parts', by simp [Node.unlocated, hparts'],
    by simp [parsePrimary, hrun]⟩

theorem primary_succ {ts rest : List Lexeme} {e : Node}
    (h : parsePrimary s (n + 1) ts = .ok (e, rest)) :
    Again Node.unlocated parsePrimary 0 true s ts e rest := by
  cases ts with
  | nil => cases h
  | cons t ts =>
    obtain ⟨token, a⟩ := t
    unfold parsePrimary at h
    dsimp only at h
    split at h
    · rename_i name
      obtain ⟨rfl, rfl⟩ := Prod.mk.inj (Except.ok.inj h)
      exact single_primary (fun l => .identifier ⟨l, name⟩) (fun _ _ => rfl) rfl fun _ _ _ _ => rfl
    · rename_i value
      obtain ⟨rfl, rfl⟩ := Prod.mk.inj (Except.ok.inj h)
      exact single_primary (.literal · (.number value)) (fun _ _ => rfl) rfl fun _ _ _ _ => rfl
    · rename_i text
      obtain ⟨rfl, rfl⟩ := Prod.mk.inj (Except.ok.inj h)
      exact single_primary (.literal · (.string text)) (fun _ _ => rfl) rfl fun _ _ _ _ => rfl
    · obtain ⟨rfl, rfl⟩ := Prod.mk.inj (Except.ok.inj h)
      exact single_primary (.literal · (.boolean true)) (fun _ _ => rfl) rfl fun _ _ _ _ => rfl
    · obtain ⟨rfl, rfl⟩ := Prod.mk.inj (Except.ok.inj h)
      exact single_primary (.literal · (.boolean false)) (fun _ _ => rfl) rfl fun _ _ _ _ => rfl
    · obtain ⟨rfl, rfl⟩ := Prod.mk.inj (Except.ok.inj h)
      exact single_primary (.literal · .null) (fun _ _ => rfl) rfl fun _ _ _ _ => rfl
    · exact ih.parens_primary h
    · exact ih.array_primary h
    · exact ih.object_primary h
    · exact ih.template_primary h
    · cases h

theorem properties_succ {ts rest : List Lexeme} {ps : List Property}
    (h : inside parseProperties s (n + 1) ts = .ok (ps, rest)) :
    Again (List.map Property.unlocated) (inside parseProperties) 1 false s.inner ts ps rest := by
  have hlist : Separates .rbrace (inside parseProperty) (inside parseProperties) := by
    intro s n ts
    rw [inside, parseProperties]
    rfl
  exact hlist.again (fun ts x rest hx => ih.property s ts x rest hx)
    (fun ts xs rest hxs => ih.properties s ts xs rest hxs) h

theorem keyed_succ {span : Span} {key : Key} {ts rest : List Lexeme} {p : Property}
    (h : parseKeyed s.inner (n + 1) span key ts = .ok (p, rest)) :
    ∃ used, ts = used ++ rest ∧ Closed true used ∧
      ∀ span' (key' : Key), key'.unlocated = key.unlocated →
        Repeats Property.unlocated (inside (parseKeyed · · span' key'))
          0 false true used rest p := by
  rw [parseKeyed] at h
  obtain ⟨⟨a, ts⟩, hcolon, h₁⟩ := bind_eq_ok.1 h
  obtain rfl := mark_eq_ok hcolon
  obtain ⟨⟨value, behind⟩, hvalue, h₂⟩ := bind_eq_ok.1 h₁
  obtain ⟨us, rfl, hus, again⟩ := ih.expr s.inner ts value behind hvalue
  obtain ⟨rfl, rfl⟩ := Prod.mk.inj (Except.ok.inj h₂)
  refine ⟨⟨.punct .colon, a⟩ :: us, rfl, .cons rfl hus, ?_⟩
  intro span' key' hkey' s' copy rest' m hcopy hend hm
  obtain ⟨a', us', rfl, hus'⟩ := hcopy.cons (.token rfl)
  simp only [textWeight_cons, weight_punct] at hm
  obtain ⟨m, rfl⟩ : ∃ k, m = k + 1 := ⟨m - 1, by omega⟩
  obtain ⟨value', hvalue', hrun⟩ := again s'.inner us' rest' m hus'.inner hend.weaken (by omega)
  exact ⟨.keyed (s'.inner.location (span'.merge value'.span)) key' value',
    by simp [Property.unlocated, hkey', hvalue'], by simp [inside, parseKeyed, mark_punct, hrun]⟩

theorem computed_property {ts rest : List Lexeme} {p : Property} {a : Span}
    (h : (do
      let (key, ts) ← parseExpr s.inner n ts
      let (_, ts) ← s.inner.mark .rbracket ts
      let (_, ts) ← s.inner.mark .colon ts
      let (value, ts) ← parseExpr s.inner n ts
      return (.computed (s.inner.location (a.merge value.span)) key value, ts)) =
      Except.ok (p, rest)) :
    Again Property.unlocated (inside parseProperty) 0 false s.inner
      (⟨.punct .lbracket, a⟩ :: ts) p rest := by
  obtain ⟨⟨key, behind⟩, hkey, h₁⟩ := bind_eq_ok.1 h
  obtain ⟨⟨b, ts'⟩, hclose, h₂⟩ := bind_eq_ok.1 h₁
  obtain rfl := mark_eq_ok hclose
  obtain ⟨⟨c, ts'⟩, hcolon, h₃⟩ := bind_eq_ok.1 h₂
  obtain rfl := mark_eq_ok hcolon
  obtain ⟨⟨value, behind⟩, hvalue, h₄⟩ := bind_eq_ok.1 h₃
  obtain ⟨vs, rfl, hvs, againValue⟩ := ih.expr s.inner ts' value behind hvalue
  obtain ⟨rfl, rfl⟩ := Prod.mk.inj (Except.ok.inj h₄)
  obtain ⟨us, rfl, hbrackets, againKey⟩ :=
    (ih.expr s.inner ts key _ hkey).enclosed (s := s.inner) ⟨.punct .lbracket, a⟩ (by decide) rfl
      rfl
  have hbehind : Closed s.inner.nested (⟨.punct .colon, c⟩ :: vs) := .cons rfl hvs
  -- The brackets around the key are closed, so the copy is cut behind them first.
  refine ⟨(⟨.punct .lbracket, a⟩ :: (us ++ [⟨.punct .rbracket, b⟩])) ++ ⟨.punct .colon, c⟩ :: vs,
    by simp, hbrackets.append hbehind, fun s' copy rest' m hcopy hend hm => ?_⟩
  obtain ⟨copy, behind, rfl, hcopy₁, hcopy₂⟩ := hcopy.append hbrackets
  obtain ⟨c', vs', rfl, hvs'⟩ := hcopy₂.cons (.token rfl)
  rw [textWeight_append] at hm
  obtain ⟨m, a', us', b', key', rfl, rfl, hkey', hrunKey⟩ := againKey s' copy
    (⟨.punct .colon, c'⟩ :: (vs' ++ rest')) m hcopy₁ (by omega)
  simp only [textWeight_cons, weight_punct] at hm
  obtain ⟨value', hvalue', hrunValue⟩ := againValue s'.inner vs' rest' m hvs'.inner hend.weaken
    (by omega)
  refine ⟨.computed (s'.inner.location (a'.merge value'.span)) key' value',
    by simp [Property.unlocated, hkey', hvalue'], ?_⟩
  simp [inside, parseProperty, hrunKey, mark_punct, hrunValue]

theorem keyed_property (key : Location → Key) {t : Lexeme} {ts rest : List Lexeme} {p : Property}
    (h : parseKeyed s.inner n t.span (key (s.inner.location t.span)) ts = .ok (p, rest))
    (hkey : ∀ l l', (key l).unlocated = (key l').unlocated)
    (hdepth : t.token.depth? true 0 = some 0)
    (hrun : ∀ (s' : Setting) span ts' m, (∀ q, startsWith q ts' = startsWith q ts) →
      parseProperty s' (m + 1) (⟨t.token, span⟩ :: ts') =
        parseKeyed s' m span (key (s'.location span)) ts') :
    Again Property.unlocated (inside parseProperty) 0 false s.inner (t :: ts) p rest := by
  obtain ⟨us, rfl, hus, again⟩ := ih.keyed s t.span _ ts p rest h
  refine ⟨t :: us, rfl, .cons hdepth hus, fun s' copy rest' m hcopy hend hm => ?_⟩
  obtain ⟨span, us', rfl, hus'⟩ := hcopy.cons (.token hdepth)
  have hweight := one_le_weight t.token
  rw [textWeight_cons] at hm
  obtain ⟨m, rfl⟩ : ∃ k, m = k + 1 := ⟨m - 1, by omega⟩
  obtain ⟨p', hp', hrunKeyed⟩ := again span (key (s'.inner.location span)) (hkey _ _) s' us' rest' m
    hus' hend (by omega)
  refine ⟨p', hp', ?_⟩
  rw [← hrunKeyed]
  exact hrun s'.inner span (us' ++ rest') m
    fun q => startsWith_head (hend.append hus'.tokens).same q

omit ih in
theorem shorthand_property {name : String} {a : Span} {rest : List Lexeme}
    (hnext : (startsWith .comma rest || startsWith .rbrace rest) = true) :
    Again Property.unlocated (inside parseProperty) 0 false s.inner
      (⟨.ident name, a⟩ :: rest) (.shorthand ⟨s.inner.location a, name⟩) rest := by
  refine ⟨[⟨.ident name, a⟩], rfl, .token rfl, fun s' copy rest' m hcopy hend hm => ?_⟩
  obtain ⟨a', us, rfl, hus⟩ := hcopy.cons (.token rfl)
  obtain rfl := List.map_eq_nil_iff.1 hus.tokens
  simp only [textWeight_cons, textWeight_nil, Token.weight] at hm
  obtain ⟨m, rfl⟩ : ∃ k, m = k + 1 := ⟨m - 1, by omega⟩
  rw [← startsWith_head hend.same, ← startsWith_head hend.same] at hnext
  exact ⟨.shorthand ⟨s'.inner.location a', name⟩, rfl, by simp [inside, parseProperty, hnext]⟩

theorem property_succ {ts rest : List Lexeme} {p : Property}
    (h : parseProperty s.inner (n + 1) ts = .ok (p, rest)) :
    Again Property.unlocated (inside parseProperty) 0 false s.inner ts p rest := by
  cases ts with
  | nil => cases h
  | cons t ts =>
    obtain ⟨token, a⟩ := t
    unfold parseProperty at h
    dsimp only at h
    split at h
    · exact ih.computed_property h
    · rename_i name
      split_ifs at h with hnext
      · obtain ⟨rfl, rfl⟩ := Prod.mk.inj (Except.ok.inj h)
        exact shorthand_property hnext
      · refine ih.keyed_property (fun l => .name ⟨l, name⟩) h (fun _ _ => rfl) rfl ?_
        intro s' span ts' m hsame
        simp only [parseProperty, hsame, if_neg hnext]
    · rename_i text
      exact ih.keyed_property (.string · text) h (fun _ _ => rfl) rfl fun _ _ _ _ _ => rfl
    · rename_i value
      exact ih.keyed_property (.number · value) h (fun _ _ => rfl) rfl fun _ _ _ _ _ => rfl
    · rename_i word
      exact ih.keyed_property (fun l => .name ⟨l, word.text⟩) h (fun _ _ => rfl) rfl
        fun _ _ _ _ _ => rfl
    · cases h

theorem pieces_succ {base : Nat} {ps : List Piece} {parts : List Node}
    (h : parsePieces s base (n + 1) ps = .ok parts) (s' : Setting) (base' : Nat) {m : Nat}
    (hm : piecesFuel ps ≤ m) :
    ∃ parts', unlocatedList parts' = unlocatedList parts ∧
      parsePieces s' base' m ps = .ok parts' := by
  cases ps with
  | nil =>
    rw [parsePieces] at h
    obtain rfl := Except.ok.inj h
    obtain ⟨m, rfl⟩ : ∃ k, m = k + 1 := ⟨m - 1, by rw [piecesFuel] at hm; omega⟩
    exact ⟨[], rfl, by rw [parsePieces]⟩
  | cons piece ps =>
    cases piece with
    | text offset chars =>
      rw [piecesFuel] at hm
      obtain ⟨m, rfl⟩ : ∃ k, m = k + 1 := ⟨m - 1, by omega⟩
      rw [parsePieces] at h
      split_ifs at h with hempty
      · obtain ⟨parts', hparts', hrun⟩ := ih.pieces s base ps parts h s' base' m (by omega)
        exact ⟨parts', hparts', by simp only [parsePieces, if_pos hempty, hrun]⟩
      · obtain ⟨rest, hrest, hok⟩ := bind_eq_ok.1 h
        obtain rfl := Except.ok.inj hok
        obtain ⟨rest', hrest', hrun⟩ := ih.pieces s base ps rest hrest s' base' m (by omega)
        refine ⟨.literal (s'.location ((Span.mk offset (offset + byteLength chars)).shift base'))
          (.string (String.ofList (unescapeChars chars))) :: rest', ?_, ?_⟩
        · simp [unlocatedList, Node.unlocated, hrest']
        · simp [parsePieces, hempty, hrun]
    | code offset chars =>
      rw [piecesFuel] at hm
      obtain ⟨m, rfl⟩ : ∃ k, m = k + 1 := ⟨m - 1, by omega⟩
      rw [parsePieces] at h
      simp only [bind_eq_ok, mapError_eq_ok] at h
      obtain ⟨ts, hts, ⟨part, left⟩, hpart, _, hleft, rest, hrest, hok⟩ := h
      obtain rfl := Except.ok.inj hok
      obtain rfl : left = [] := by
        cases left with
        | nil => rfl
        | cons t left => cases hleft
      -- The code of a piece is cut into tokens by itself, at an offset that does not matter.
      have hlexed := tokenizeFrom_eq_ok.1 hts
      obtain ⟨us, htokens, hcopy⟩ := hlexed.shift (base' + offset)
      obtain ⟨used, hused, hclosed, again⟩ := ih.expr _ ts part [] hpart
      rw [List.append_nil] at hused
      subst hused
      have hsize := hlexed.textWeight_le
      obtain ⟨part', hpart', hrun⟩ := again
        ⟨s'.lines, base' + offset + byteLength chars, true⟩ us [] m ⟨fun _ => rfl, hclosed, htokens⟩
        (.inl rfl) (by omega)
      obtain ⟨rest', hrest', hrunRest⟩ := ih.pieces s base ps rest hrest s' base' m (by omega)
      rw [List.append_nil] at hrun
      refine ⟨part' :: rest', by simp [unlocatedList, hpart', hrest'], ?_⟩
      simp [parsePieces, hcopy.tokenizeFrom, hrun, finished, hrunRest]

theorem succ : ParsesAgain (n + 1) where
  expr _ _ _ _ h := ih.expr_succ h
  binary _ _ _ _ _ h := ih.binary_succ h
  operators _ _ _ _ _ _ h := ih.operators_succ h
  unary _ _ _ _ h := ih.unary_succ h
  member _ _ _ _ h := ih.member_succ h
  accesses _ _ _ _ _ h := ih.accesses_succ h
  items _ _ _ _ _ h := ih.items_succ h
  primary _ _ _ _ h := ih.primary_succ h
  properties _ _ _ _ h := ih.properties_succ h
  property _ _ _ _ h := ih.property_succ h
  keyed _ _ _ _ _ _ h := ih.keyed_succ h
  pieces _ _ _ _ h s' base' _ hm := ih.pieces_succ h s' base' hm

omit ih in
theorem all (n : Nat) : ParsesAgain n := by
  induction n with
  | zero => exact zero
  | succ n ih => exact ih.succ

end ParsesAgain

end VueToSan.Expr
