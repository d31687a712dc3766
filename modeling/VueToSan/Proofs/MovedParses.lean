import VueToSan.Proofs.NestedLocations

/-!
# Moved parses

A parse sees the offsets of its tokens only in the locations that it gives to the tree. So the same
tokens further on in another source are parsed to the same tree with other locations, with the same
fuel or with more.
-/

namespace VueToSan

open VueToSan.Text

def Span.Within (s : Span) (length : Nat) : Prop := s.start ≤ length ∧ s.stop ≤ length

theorem Span.merge_shift (s t : Span) (offset : Nat) :
    (s.shift offset).merge (t.shift offset) = (s.merge t).shift offset := by
  simp only [merge, shift, Nat.add_min_add_right, Nat.add_max_add_right]

theorem Span.Within.merge {s t : Span} {length : Nat} (hs : s.Within length)
    (ht : t.Within length) : (s.merge t).Within length :=
  ⟨(Nat.min_le_left _ _).trans hs.1, Nat.max_le.2 ⟨hs.2, ht.2⟩⟩

/-! ## Positions behind a piece of a line -/

/-- The position of a character when so many bytes are put in front of its text, without a line
feed among them. -/
def Position.moved (offset : Nat) (p : Position) : Position :=
  ⟨p.line, if p.line = 1 then p.column + offset else p.column, p.offset + offset⟩

def Location.moved (offset : Nat) (l : Location) : Location :=
  ⟨l.start.moved offset, l.stop.moved offset⟩

namespace LineIndex

theorem startsFrom_append (offset : Nat) (cs ds : List Char) :
    startsFrom offset (cs ++ ds) =
      startsFrom offset cs ++ startsFrom (offset + byteLength cs) ds := by
  induction cs generalizing offset with
  | nil => rfl
  | cons c cs ih =>
    simp only [List.cons_append, startsFrom, ih, byteLength_cons, Nat.add_assoc]
    split <;> rfl

theorem startsFrom_add (offset more : Nat) (cs : List Char) :
    startsFrom (offset + more) cs = (startsFrom offset cs).map (· + more) := by
  induction cs generalizing offset with
  | nil => rfl
  | cons c cs ih =>
    simp only [startsFrom, Nat.add_right_comm offset more, ih]
    split <;> rfl

theorem startsFrom_line {offset : Nat} {cs : List Char} (h : '\n' ∉ cs) :
    startsFrom offset cs = [] := by
  induction cs generalizing offset with
  | nil => rfl
  | cons c cs ih =>
    obtain ⟨hc, hcs⟩ := not_or.1 (mt List.mem_cons.2 h)
    rw [startsFrom, if_neg (Ne.symm hc), ih hcs]

theorem getD_behind (starts later : List Nat) (more : Nat) {line : Nat}
    (hline : line < starts.length) :
    (0 :: (starts.map (· + more) ++ later)).getD (line + 1) 0 =
      (0 :: starts).getD (line + 1) 0 + more := by
  simp [List.getD_eq_getElem?_getD, List.getElem?_append_left, hline]

theorem position_behind {front : List Char} (hfront : '\n' ∉ front) (cs back : List Char) {n : Nat}
    (hn : n ≤ byteLength cs) :
    (ofChars (front ++ (cs ++ back))).position (n + byteLength front) =
      ((ofChars cs).position n).moved (byteLength front) := by
  have hstarts : (ofChars (front ++ (cs ++ back))).starts =
      0 :: ((startsFrom 0 cs).map (· + byteLength front) ++
        startsFrom (byteLength front + byteLength cs) back) := by
    rw [ofChars, startsFrom_append, startsFrom_line hfront, startsFrom_append, startsFrom_add]
    simp
  have hlength : n + byteLength front ≤ (ofChars (front ++ (cs ++ back))).length := by
    simp only [ofChars, byteLength_append]
    omega
  have hback : (startsFrom (byteLength front + byteLength cs) back).countP
      (· ≤ n + byteLength front) = 0 := by
    rw [List.countP_eq_zero]
    intro m hm
    have := startsFrom_gt _ back m hm
    simp only [decide_eq_true_eq]
    omega
  -- As many lines start in front of the character as before, since `front` starts none.
  have hcount : (ofChars (front ++ (cs ++ back))).starts.countP (· ≤ n + byteLength front) =
      (startsFrom 0 cs).countP (· ≤ n) + 1 := by
    rw [hstarts, List.countP_cons, List.countP_append, hback, List.countP_map]
    simp [Function.comp_def]
  have hinner : (ofChars cs).starts.countP (· ≤ n) = (startsFrom 0 cs).countP (· ≤ n) + 1 := by
    simp [ofChars]
  have hcs : n ≤ (ofChars cs).length := hn
  simp only [position, lineCol, Nat.min_eq_left hlength, Nat.min_eq_left hcs, hcount, hinner,
    Nat.add_sub_cancel, Position.moved]
  cases hline : (startsFrom 0 cs).countP (· ≤ n) with
  | zero =>
    simp [ofChars, Nat.add_right_comm]
  | succ line =>
    have hbound : line < (startsFrom 0 cs).length := by
      have := List.countP_le_length (p := (· ≤ n)) (l := startsFrom 0 cs)
      omega
    rw [hstarts, getD_behind _ _ _ hbound]
    simp [ofChars, Nat.add_sub_add_right]

end LineIndex

end VueToSan

namespace VueToSan.Expr

open VueToSan.Text

/-! ## Trees with other locations -/

def Name.relocated (f : Location → Location) (n : Name) : Name := ⟨f n.location, n.text⟩

def Key.relocated (f : Location → Location) : Key → Key
  | .name n => .name (n.relocated f)
  | .string location text => .string (f location) text
  | .number location value => .number (f location) value

mutual

def Node.relocated (f : Location → Location) : Node → Node
  | .identifier name => .identifier (name.relocated f)
  | .literal location value => .literal (f location) value
  | .array location elements => .array (f location) (relocatedList f elements)
  | .object location properties => .object (f location) (relocatedProperties f properties)
  | .unary location op argument => .unary (f location) op (argument.relocated f)
  | .binary location op left right =>
    .binary (f location) op (left.relocated f) (right.relocated f)
  | .logical location op left right =>
    .logical (f location) op (left.relocated f) (right.relocated f)
  | .conditional location test consequent alternate =>
    .conditional (f location) (test.relocated f) (consequent.relocated f) (alternate.relocated f)
  | .field location object name => .field (f location) (object.relocated f) (name.relocated f)
  | .index location object index => .index (f location) (object.relocated f) (index.relocated f)
  | .call location callee arguments =>
    .call (f location) (callee.relocated f) (relocatedList f arguments)
  | .template location parts => .template (f location) (relocatedList f parts)

def relocatedList (f : Location → Location) : List Node → List Node
  | [] => []
  | e :: es => e.relocated f :: relocatedList f es

def relocatedProperties (f : Location → Location) : List Property → List Property
  | [] => []
  | p :: ps => p.relocated f :: relocatedProperties f ps

def Property.relocated (f : Location → Location) : Property → Property
  | .shorthand name => .shorthand (name.relocated f)
  | .keyed location key value => .keyed (f location) (key.relocated f) (value.relocated f)
  | .computed location key value => .computed (f location) (key.relocated f) (value.relocated f)

end

theorem Node.location_relocated (f : Location → Location) (e : Node) :
    (e.relocated f).location = f e.location := by
  cases e <;> simp only [relocated, location, Name.relocated]

theorem Infix.node_relocated (f : Location → Location) (op : Infix) (l : Location)
    (left right : Node) :
    (op.node l left right).relocated f =
      op.node (f l) (left.relocated f) (right.relocated f) := by
  cases op <;> simp only [node, Node.relocated]

theorem Infix.node_span (op : Infix) (l : Location) (left right : Node) :
    (op.node l left right).span = l.span := by
  cases op <;> rfl

theorem Lexeme.token_shift (t : Lexeme) (offset : Nat) : (t.shift offset).token = t.token := rfl

/-! ## Moves -/

/-- How a piece of a source of a given length is moved: by how many bytes, and what becomes of its
locations. -/
structure Move where
  relocate : Location → Location
  offset : Nat
  length : Nat

structure Move.Leads (v : Move) (s s' : Setting) : Prop where
  nested : s'.nested = s.nested
  location : ∀ span : Span, span.Within v.length →
    s'.location (span.shift v.offset) = v.relocate (s.location span)
  span : ∀ l, (v.relocate l).span = l.span.shift v.offset
  within : ∀ span, (s.location span).span.Within v.length

def Lexeme.Within (t : Lexeme) (length : Nat) : Prop :=
  t.span.Within length ∧ ∀ body : String, t.token = .template body →
    t.span.start + 1 + byteLength body.toList ≤ length

namespace Move

variable (v : Move)

def NodeMoved (e e' : Node) : Prop := e' = e.relocated v.relocate ∧ e.span.Within v.length

def PropertyMoved (p p' : Property) : Prop := p' = p.relocated v.relocate

def SpanMoved (a a' : Span) : Prop := a' = a.shift v.offset ∧ a.Within v.length

def ListMoved (es es' : List Node) : Prop := es' = relocatedList v.relocate es

def PropertiesMoved (ps ps' : List Property) : Prop := ps' = relocatedProperties v.relocate ps

def tokens (ts : List Lexeme) : List Lexeme := ts.map (·.shift v.offset)

def Ahead {α : Type} (R : α → α → Prop) (r r' : Followed α) : Prop :=
  R r.1 r'.1 ∧ r'.2 = v.tokens r.2 ∧ ∀ t ∈ r.2, t.Within v.length

end Move

/-- Where the first result is no error, the second one is related to it. -/
def Carried {α β : Type} (R : α → β → Prop) (x : Except Stop α) (y : Except Stop β) : Prop :=
  ∀ a, x = .ok a → ∃ b, y = .ok b ∧ R a b

namespace Carried

variable {α β α' β' : Type} {R : α → β → Prop} {Q : α' → β' → Prop}

theorem ok {a : α} {b : β} (h : R a b) : Carried R (.ok a) (.ok b) := by
  intro a' ha'
  obtain rfl := Except.ok.inj ha'
  exact ⟨b, rfl, h⟩

theorem error (e : Stop) (y : Except Stop β) : Carried R (.error e) y := by
  intro a ha
  cases ha

theorem bind {x : Except Stop α} {y : Except Stop β} {f : α → Except Stop α'}
    {g : β → Except Stop β'} (h : Carried R x y) (hfg : ∀ a b, R a b → Carried Q (f a) (g b)) :
    Carried Q (x >>= f) (y >>= g) := by
  intro c hc
  obtain ⟨a, ha, hfa⟩ := bind_eq_ok.1 hc
  obtain ⟨b, hb, hab⟩ := h a ha
  obtain ⟨d, hd, hcd⟩ := hfg a b hab c hfa
  exact ⟨d, by rw [hb]; exact hd, hcd⟩

end Carried

namespace Move

variable {v : Move} {s s' : Setting} {ts : List Lexeme}

theorem Leads.inner (h : v.Leads s s') : v.Leads s.inner s'.inner :=
  ⟨rfl, h.location, h.span, h.within⟩

theorem Leads.merge (h : v.Leads s s') {a b : Span} (ha : a.Within v.length)
    (hb : b.Within v.length) :
    s'.location ((a.shift v.offset).merge (b.shift v.offset)) =
      v.relocate (s.location (a.merge b)) := by
  rw [Span.merge_shift, h.location _ (ha.merge hb)]

theorem Leads.node_span (h : v.Leads s s') (e : Node) :
    (e.relocated v.relocate).span = e.span.shift v.offset := by
  rw [Node.span, Node.location_relocated, h.span]
  rfl

theorem startsWith_tokens (p : Punct) (ts : List Lexeme) :
    startsWith p (v.tokens ts) = startsWith p ts := by
  refine startsWith_head ?_ p
  cases ts <;> rfl

theorem tokens_nil : v.tokens [] = [] := rfl

theorem tokens_cons (t : Lexeme) (ts : List Lexeme) :
    v.tokens (t :: ts) = t.shift v.offset :: v.tokens ts := rfl

theorem tail_tokens (ts : List Lexeme) : (v.tokens ts).tail = v.tokens ts.tail :=
  List.map_tail.symm

theorem carried_mark (p : Punct) (hts : ∀ t ∈ ts, t.Within v.length) :
    Carried (v.Ahead v.SpanMoved) (s.mark p ts) (s'.mark p (v.tokens ts)) := by
  rintro ⟨span, rest⟩ h
  obtain rfl := mark_eq_ok h
  obtain ⟨hspan, hrest⟩ := List.forall_mem_cons.1 hts
  refine ⟨(span.shift v.offset, v.tokens rest), ?_, ⟨rfl, hspan.1⟩, rfl, hrest⟩
  simp [Setting.mark, tokens, Lexeme.shift]

theorem carried_finished (ts : List Lexeme) :
    Carried (fun _ _ => True) (finished ts) (finished (v.tokens ts)) := by
  cases ts with
  | nil => exact .ok trivial
  | cons t ts => exact .error _ _

theorem within_of_lexed {pos length : Nat} {cs : List Char} (h : Lexed pos cs ts)
    (hlength : pos + byteLength cs ≤ length) : ∀ t ∈ ts, t.Within length := by
  intro t ht
  obtain ⟨c, text, ⟨before, after, rfl, hspan⟩, -, hscans⟩ := h.stands t ht
  simp only [byteLength_append] at hlength
  refine ⟨?_, fun body hbody => ?_⟩
  · rw [Span.Within, hspan]
    exact ⟨by dsimp only; omega, by dsimp only; omega⟩
  · rw [hbody] at hscans
    have hquote : '\x60'.utf8Size = 1 := rfl
    rw [hscans.template, byteLength_cons, byteLength_append, hquote] at hlength
    rw [hspan]
    dsimp only
    omega

theorem carried_tokens {start : Nat} {chars : List Char}
    (h : start + byteLength chars ≤ v.length) :
    Carried (fun ts ts' => ts' = v.tokens ts ∧ ∀ t ∈ ts, t.Within v.length)
      ((tokenizeFrom start 0 chars).mapError Stop.failed)
      ((tokenizeFrom (start + v.offset) 0 chars).mapError Stop.failed) := by
  intro ts hts
  have hlexed := tokenizeFrom_eq_ok.1 (mapError_eq_ok.1 hts)
  exact ⟨v.tokens ts, mapError_eq_ok.2 (tokenizeFrom_eq_ok.2 (hlexed.shifted v.offset)), rfl,
    within_of_lexed hlexed h⟩

end Move

/-- Each parsing function, with fuel `n` or more, gives the moved result for moved tokens. -/
structure ParsesMoved (v : Move) (n : Nat) : Prop where
  expr : ∀ {s s' m ts}, v.Leads s s' → n ≤ m → (∀ t ∈ ts, t.Within v.length) →
    Carried (v.Ahead v.NodeMoved) (parseExpr s n ts) (parseExpr s' m (v.tokens ts))
  binary : ∀ {s s' least m ts}, v.Leads s s' → n ≤ m → (∀ t ∈ ts, t.Within v.length) →
    Carried (v.Ahead v.NodeMoved) (parseBinary s least n ts) (parseBinary s' least m (v.tokens ts))
  operators : ∀ {s s' least m left ts}, v.Leads s s' → n ≤ m → left.span.Within v.length →
    (∀ t ∈ ts, t.Within v.length) →
    Carried (v.Ahead v.NodeMoved) (parseOperators s least n left ts)
      (parseOperators s' least m (left.relocated v.relocate) (v.tokens ts))
  unary : ∀ {s s' m ts}, v.Leads s s' → n ≤ m → (∀ t ∈ ts, t.Within v.length) →
    Carried (v.Ahead v.NodeMoved) (parseUnary s n ts) (parseUnary s' m (v.tokens ts))
  member : ∀ {s s' m ts}, v.Leads s s' → n ≤ m → (∀ t ∈ ts, t.Within v.length) →
    Carried (v.Ahead v.NodeMoved) (parseMember s n ts) (parseMember s' m (v.tokens ts))
  accesses : ∀ {s s' m object ts}, v.Leads s s' → n ≤ m → object.span.Within v.length →
    (∀ t ∈ ts, t.Within v.length) →
    Carried (v.Ahead v.NodeMoved) (parseAccesses s n object ts)
      (parseAccesses s' m (object.relocated v.relocate) (v.tokens ts))
  items : ∀ {s s' close m ts}, v.Leads s s' → n ≤ m → (∀ t ∈ ts, t.Within v.length) →
    Carried (v.Ahead v.ListMoved) (parseItems s close n ts) (parseItems s' close m (v.tokens ts))
  primary : ∀ {s s' m ts}, v.Leads s s' → n ≤ m → (∀ t ∈ ts, t.Within v.length) →
    Carried (v.Ahead v.NodeMoved) (parsePrimary s n ts) (parsePrimary s' m (v.tokens ts))
  properties : ∀ {s s' m ts}, v.Leads s s' → n ≤ m → (∀ t ∈ ts, t.Within v.length) →
    Carried (v.Ahead v.PropertiesMoved) (parseProperties s n ts)
      (parseProperties s' m (v.tokens ts))
  property : ∀ {s s' m ts}, v.Leads s s' → n ≤ m → (∀ t ∈ ts, t.Within v.length) →
    Carried (v.Ahead v.PropertyMoved) (parseProperty s n ts) (parseProperty s' m (v.tokens ts))
  keyed : ∀ {s s' m span ts} (key : Key), v.Leads s s' → n ≤ m → span.Within v.length →
    (∀ t ∈ ts, t.Within v.length) →
    Carried (v.Ahead v.PropertyMoved) (parseKeyed s n span key ts)
      (parseKeyed s' m (span.shift v.offset) (key.relocated v.relocate) (v.tokens ts))
  pieces : ∀ {s s' m base ps}, v.Leads s s' → n ≤ m →
    (∀ p ∈ ps, (p.spanFrom base).stop ≤ v.length) →
    Carried v.ListMoved (parsePieces s base n ps) (parsePieces s' (base + v.offset) m ps)

namespace ParsesMoved

variable {v : Move}

theorem zero : ParsesMoved v 0 where
  expr _ _ _ := by rw [parseExpr]; exact .error _ _
  binary _ _ _ := by rw [parseBinary]; exact .error _ _
  operators _ _ _ _ := by rw [parseOperators]; exact .error _ _
  unary _ _ _ := by rw [parseUnary]; exact .error _ _
  member _ _ _ := by rw [parseMember]; exact .error _ _
  accesses _ _ _ _ := by rw [parseAccesses]; exact .error _ _
  items _ _ _ := by rw [parseItems]; exact .error _ _
  primary _ _ _ := by rw [parsePrimary]; exact .error _ _
  properties _ _ _ := by rw [parseProperties]; exact .error _ _
  property _ _ _ := by rw [parseProperty]; exact .error _ _
  keyed _ _ _ _ _ := by rw [parseKeyed]; exact .error _ _
  pieces _ _ _ := by rw [parsePieces]; exact .error _ _

variable {n m : Nat} (ih : ParsesMoved v n) {s s' : Setting} (hs : v.Leads s s') (hm : n ≤ m)
  {ts : List Lexeme} (hts : ∀ t ∈ ts, t.Within v.length)

include ih hs hm hts

theorem expr_succ :
    Carried (v.Ahead v.NodeMoved) (parseExpr s (n + 1) ts)
      (parseExpr s' (m + 1) (v.tokens ts)) := by
  rw [parseExpr, parseExpr]
  refine (ih.binary hs hm hts).bind ?_
  rintro ⟨test, us⟩ ⟨_, _⟩ ⟨⟨rfl, htest⟩, rfl, hus⟩
  dsimp only
  rw [Move.startsWith_tokens, Move.tail_tokens]
  split_ifs
  · refine (ih.expr hs hm fun t ht => hus t (List.mem_of_mem_tail ht)).bind ?_
    rintro ⟨x, vs⟩ ⟨_, _⟩ ⟨⟨rfl, hx⟩, rfl, hvs⟩
    refine (Move.carried_mark .colon hvs).bind ?_
    rintro ⟨b, ws⟩ ⟨_, _⟩ ⟨⟨rfl, hb⟩, rfl, hws⟩
    refine (ih.expr hs hm hws).bind ?_
    rintro ⟨y, rest⟩ ⟨_, _⟩ ⟨⟨rfl, hy⟩, rfl, hrest⟩
    refine .ok ⟨⟨?_, hs.within _⟩, rfl, hrest⟩
    simp only [Node.relocated, hs.node_span, hs.merge htest hy]
  · exact .ok ⟨⟨rfl, htest⟩, rfl, hus⟩

theorem binary_succ (least : Nat) :
    Carried (v.Ahead v.NodeMoved) (parseBinary s least (n + 1) ts)
      (parseBinary s' least (m + 1) (v.tokens ts)) := by
  rw [parseBinary, parseBinary]
  refine (ih.unary hs hm hts).bind ?_
  rintro ⟨left, us⟩ ⟨_, _⟩ ⟨⟨rfl, hleft⟩, rfl, hus⟩
  exact ih.operators hs hm hleft hus

theorem operators_succ (least : Nat) {left : Node} (hleft : left.span.Within v.length) :
    Carried (v.Ahead v.NodeMoved) (parseOperators s least (n + 1) left ts)
      (parseOperators s' least (m + 1) (left.relocated v.relocate) (v.tokens ts)) := by
  have hdone : Carried (v.Ahead v.NodeMoved) (.ok (left, ts))
      (.ok (left.relocated v.relocate, v.tokens ts)) := .ok ⟨⟨rfl, hleft⟩, rfl, hts⟩
  cases ts with
  | nil => exact hdone
  | cons t ts =>
    rw [Move.tokens_cons, parseOperators, parseOperators, hs.nested, Lexeme.token_shift]
    cases t.token.binding? s.nested with
    | none => exact hdone
    | some b =>
      dsimp only
      split_ifs
      · exact hdone
      · refine (ih.binary hs hm (List.forall_mem_cons.1 hts).2).bind ?_
        rintro ⟨right, us⟩ ⟨_, _⟩ ⟨⟨rfl, hright⟩, rfl, hus⟩
        have hnode : (b.operator.node (s.location (left.span.merge right.span)) left
            right).relocated v.relocate = b.operator.node
              (s'.location ((left.relocated v.relocate).span.merge
                (right.relocated v.relocate).span))
              (left.relocated v.relocate) (right.relocated v.relocate) := by
          rw [Infix.node_relocated, hs.node_span, hs.node_span, hs.merge hleft hright]
        dsimp only
        rw [← hnode]
        refine ih.operators hs hm ?_ hus
        rw [Infix.node_span]
        exact hs.within _

theorem unary_succ :
    Carried (v.Ahead v.NodeMoved) (parseUnary s (n + 1) ts)
      (parseUnary s' (m + 1) (v.tokens ts)) := by
  cases ts with
  | nil =>
    rw [Move.tokens_nil, parseUnary, parseUnary]
    exact ih.member hs hm hts
  | cons t ts =>
    have hmember := ih.member hs hm hts
    obtain ⟨ht, hts⟩ := List.forall_mem_cons.1 hts
    rw [Move.tokens_cons] at hmember ⊢
    rw [parseUnary, parseUnary, Lexeme.token_shift]
    cases t.token.unaryOp? with
    | none => exact hmember
    | some op =>
      refine (ih.unary hs hm hts).bind ?_
      rintro ⟨argument, us⟩ ⟨_, _⟩ ⟨⟨rfl, hargument⟩, rfl, hus⟩
      refine .ok ⟨⟨?_, hs.within _⟩, rfl, hus⟩
      simp only [Node.relocated, hs.node_span, Lexeme.shift, hs.merge ht.1 hargument]

theorem member_succ :
    Carried (v.Ahead v.NodeMoved) (parseMember s (n + 1) ts)
      (parseMember s' (m + 1) (v.tokens ts)) := by
  rw [parseMember, parseMember]
  refine (ih.primary hs hm hts).bind ?_
  rintro ⟨object, us⟩ ⟨_, _⟩ ⟨⟨rfl, hobject⟩, rfl, hus⟩
  exact ih.accesses hs hm hobject hus

theorem field_access {object : Node} (hobject : object.span.Within v.length) {a a' : Span} :
    Carried (v.Ahead v.NodeMoved) (parseAccesses s (n + 1) object (⟨.punct .dot, a⟩ :: ts))
      (parseAccesses s' (m + 1) (object.relocated v.relocate)
        (⟨.punct .dot, a'⟩ :: v.tokens ts)) := by
  cases ts with
  | nil =>
    rw [parseAccesses]
    exact .error _ _
  | cons t ts =>
    obtain ⟨ht, hts⟩ := List.forall_mem_cons.1 hts
    rw [Move.tokens_cons, parseAccesses, parseAccesses, Lexeme.token_shift]
    cases t.token.memberName? with
    | none => exact .error _ _
    | some name =>
      have hnode : (Node.field (s.location (object.span.merge t.span)) object
          ⟨s.location t.span, name⟩).relocated v.relocate =
            .field (s'.location ((object.relocated v.relocate).span.merge
              (t.shift v.offset).span)) (object.relocated v.relocate)
              ⟨s'.location (t.shift v.offset).span, name⟩ := by
        simp only [Node.relocated, Name.relocated, Lexeme.shift, hs.node_span,
          hs.merge hobject ht.1, hs.location _ ht.1]
      dsimp only
      rw [← hnode]
      exact ih.accesses hs hm (hs.within _) hts

theorem index_access {object : Node} (hobject : object.span.Within v.length) {a a' : Span} :
    Carried (v.Ahead v.NodeMoved) (parseAccesses s (n + 1) object (⟨.punct .lbracket, a⟩ :: ts))
      (parseAccesses s' (m + 1) (object.relocated v.relocate)
        (⟨.punct .lbracket, a'⟩ :: v.tokens ts)) := by
  rw [parseAccesses, parseAccesses]
  refine (ih.expr hs.inner hm hts).bind ?_
  rintro ⟨index, us⟩ ⟨_, _⟩ ⟨⟨rfl, -⟩, rfl, hus⟩
  refine (Move.carried_mark .rbracket hus).bind ?_
  rintro ⟨b, rest⟩ ⟨_, _⟩ ⟨⟨rfl, hb⟩, rfl, hrest⟩
  have hnode : (Node.index (s.location (object.span.merge b)) object index).relocated v.relocate =
      .index (s'.location ((object.relocated v.relocate).span.merge (b.shift v.offset)))
        (object.relocated v.relocate) (index.relocated v.relocate) := by
    simp only [Node.relocated, hs.node_span, hs.merge hobject hb]
  dsimp only
  rw [← hnode]
  exact ih.accesses hs hm (hs.within _) hrest

theorem call_access {object : Node} (hobject : object.span.Within v.length) {a a' : Span} :
    Carried (v.Ahead v.NodeMoved) (parseAccesses s (n + 1) object (⟨.punct .lparen, a⟩ :: ts))
      (parseAccesses s' (m + 1) (object.relocated v.relocate)
        (⟨.punct .lparen, a'⟩ :: v.tokens ts)) := by
  rw [parseAccesses, parseAccesses]
  refine (ih.items hs.inner hm hts).bind ?_
  rintro ⟨arguments, us⟩ ⟨_, _⟩ ⟨rfl, rfl, hus⟩
  refine (Move.carried_mark .rparen hus).bind ?_
  rintro ⟨b, rest⟩ ⟨_, _⟩ ⟨⟨rfl, hb⟩, rfl, hrest⟩
  have hnode : (Node.call (s.location (object.span.merge b)) object arguments).relocated
      v.relocate = .call (s'.location ((object.relocated v.relocate).span.merge
        (b.shift v.offset))) (object.relocated v.relocate) (relocatedList v.relocate arguments) := by
    simp only [Node.relocated, hs.node_span, hs.merge hobject hb]
  dsimp only
  rw [← hnode]
  exact ih.accesses hs hm (hs.within _) hrest

theorem accesses_succ {object : Node} (hobject : object.span.Within v.length) :
    Carried (v.Ahead v.NodeMoved) (parseAccesses s (n + 1) object ts)
      (parseAccesses s' (m + 1) (object.relocated v.relocate) (v.tokens ts)) := by
  by_cases hstop : ∀ t ∈ ts.head?, t.token.opensAccess = false
  · have hstop' : ∀ t ∈ (v.tokens ts).head?, t.token.opensAccess = false := by
      cases ts with
      | nil => exact hstop
      | cons t ts => simpa [Move.tokens_cons, Lexeme.token_shift] using hstop
    rw [ParsesAgain.parseAccesses_stop s hstop, ParsesAgain.parseAccesses_stop s' hstop']
    exact .ok ⟨⟨rfl, hobject⟩, rfl, hts⟩
  cases ts with
  | nil => exact absurd (fun t ht => nomatch ht) hstop
  | cons t ts =>
    obtain ⟨token, a⟩ := t
    obtain ⟨-, htail⟩ := List.forall_mem_cons.1 hts
    have hopens : token.opensAccess = true := by simpa using hstop
    rw [Move.tokens_cons]
    rcases opensAccess_iff.1 hopens with rfl | rfl | rfl
    · exact ih.field_access hs hm htail hobject
    · exact ih.index_access hs hm htail hobject
    · exact ih.call_access hs hm htail hobject

theorem items_succ (close : Punct) :
    Carried (v.Ahead v.ListMoved) (parseItems s close (n + 1) ts)
      (parseItems s' close (m + 1) (v.tokens ts)) := by
  rw [parseItems, parseItems, Move.startsWith_tokens]
  split_ifs
  · exact .ok ⟨rfl, rfl, hts⟩
  · refine (ih.expr hs hm hts).bind ?_
    rintro ⟨item, us⟩ ⟨_, _⟩ ⟨⟨rfl, -⟩, rfl, hus⟩
    dsimp only
    rw [Move.startsWith_tokens, Move.tail_tokens]
    split_ifs
    · refine (ih.items hs hm fun t ht => hus t (List.mem_of_mem_tail ht)).bind ?_
      rintro ⟨items, rest⟩ ⟨_, _⟩ ⟨rfl, rfl, hrest⟩
      exact .ok ⟨rfl, rfl, hrest⟩
    · exact .ok ⟨rfl, rfl, hus⟩

theorem primary_succ :
    Carried (v.Ahead v.NodeMoved) (parsePrimary s (n + 1) ts)
      (parsePrimary s' (m + 1) (v.tokens ts)) := by
  cases ts with
  | nil =>
    rw [parsePrimary]
    exact .error _ _
  | cons t ts =>
    obtain ⟨token, span⟩ := t
    obtain ⟨⟨hspan, hbody⟩, htail⟩ := List.forall_mem_cons.1 hts
    have hliteral : ∀ value, Carried (v.Ahead v.NodeMoved)
        (.ok (.literal (s.location span) value, ts))
        (.ok (.literal (s'.location (span.shift v.offset)) value, v.tokens ts)) := fun value =>
      .ok ⟨⟨by rw [Node.relocated, hs.location _ hspan], hs.within _⟩, rfl, htail⟩
    rw [Move.tokens_cons]
    unfold parsePrimary
    dsimp only [Lexeme.shift]
    -- Names and literals take one token; brackets and templates go back to the hypothesis.
    split
    · refine .ok ⟨⟨?_, hs.within _⟩, rfl, htail⟩
      simp only [Node.relocated, Name.relocated, hs.location _ hspan]
    · exact hliteral _
    · exact hliteral _
    · exact hliteral _
    · exact hliteral _
    · exact hliteral _
    · refine (ih.expr hs.inner hm htail).bind ?_
      rintro ⟨inner, us⟩ ⟨_, _⟩ ⟨⟨rfl, hinner⟩, rfl, hus⟩
      refine (Move.carried_mark .rparen hus).bind ?_
      rintro ⟨b, rest⟩ ⟨_, _⟩ ⟨-, rfl, hrest⟩
      exact .ok ⟨⟨rfl, hinner⟩, rfl, hrest⟩
    · refine (ih.items hs.inner hm htail).bind ?_
      rintro ⟨elements, us⟩ ⟨_, _⟩ ⟨rfl, rfl, hus⟩
      refine (Move.carried_mark .rbracket hus).bind ?_
      rintro ⟨b, rest⟩ ⟨_, _⟩ ⟨⟨rfl, hb⟩, rfl, hrest⟩
      refine .ok ⟨⟨?_, hs.within _⟩, rfl, hrest⟩
      simp only [Node.relocated, hs.merge hspan hb]
    · refine (ih.properties hs.inner hm htail).bind ?_
      rintro ⟨properties, us⟩ ⟨_, _⟩ ⟨rfl, rfl, hus⟩
      refine (Move.carried_mark .rbrace hus).bind ?_
      rintro ⟨b, rest⟩ ⟨_, _⟩ ⟨⟨rfl, hb⟩, rfl, hrest⟩
      refine .ok ⟨⟨?_, hs.within _⟩, rfl, hrest⟩
      simp only [Node.relocated, hs.merge hspan hb]
    · rename_i body
      have hcuts := (cuts_pieces (span.start + 1) body.toList).laid
      have hpieces : ∀ p ∈ Expr.pieces body.toList, (p.spanFrom (span.start + 1)).stop ≤ v.length :=
        fun p hp => (hcuts.covers (List.mem_map_of_mem hp)).2.2.trans (hbody body rfl)
      have hstart : (span.shift v.offset).start + 1 = span.start + 1 + v.offset :=
        Nat.add_right_comm ..
      rw [hstart]
      refine (ih.pieces hs hm hpieces).bind ?_
      rintro parts _ rfl
      refine .ok ⟨⟨?_, hs.within _⟩, rfl, htail⟩
      rw [Node.relocated, hs.location _ hspan]
    · exact .error _ _

theorem properties_succ :
    Carried (v.Ahead v.PropertiesMoved) (parseProperties s (n + 1) ts)
      (parseProperties s' (m + 1) (v.tokens ts)) := by
  rw [parseProperties, parseProperties, Move.startsWith_tokens]
  split_ifs
  · exact .ok ⟨rfl, rfl, hts⟩
  · refine (ih.property hs hm hts).bind ?_
    rintro ⟨property, us⟩ ⟨_, _⟩ ⟨rfl, rfl, hus⟩
    dsimp only
    rw [Move.startsWith_tokens, Move.tail_tokens]
    split_ifs
    · refine (ih.properties hs hm fun t ht => hus t (List.mem_of_mem_tail ht)).bind ?_
      rintro ⟨properties, rest⟩ ⟨_, _⟩ ⟨rfl, rfl, hrest⟩
      exact .ok ⟨rfl, rfl, hrest⟩
    · exact .ok ⟨rfl, rfl, hus⟩

theorem property_succ :
    Carried (v.Ahead v.PropertyMoved) (parseProperty s (n + 1) ts)
      (parseProperty s' (m + 1) (v.tokens ts)) := by
  cases ts with
  | nil =>
    rw [parseProperty]
    exact .error _ _
  | cons t ts =>
    obtain ⟨token, span⟩ := t
    obtain ⟨⟨hspan, -⟩, htail⟩ := List.forall_mem_cons.1 hts
    have hlocation := hs.location _ hspan
    rw [Move.tokens_cons]
    unfold parseProperty
    dsimp only [Lexeme.shift]
    split
    · refine (ih.expr hs hm htail).bind ?_
      rintro ⟨key, us⟩ ⟨_, _⟩ ⟨⟨rfl, -⟩, rfl, hus⟩
      refine (Move.carried_mark .rbracket hus).bind ?_
      rintro ⟨b, vs⟩ ⟨_, _⟩ ⟨-, rfl, hvs⟩
      refine (Move.carried_mark .colon hvs).bind ?_
      rintro ⟨c, ws⟩ ⟨_, _⟩ ⟨-, rfl, hws⟩
      refine (ih.expr hs hm hws).bind ?_
      rintro ⟨value, rest⟩ ⟨_, _⟩ ⟨⟨rfl, hvalue⟩, rfl, hrest⟩
      refine .ok ⟨?_, rfl, hrest⟩
      simp only [Move.PropertyMoved, Property.relocated, hs.node_span, hs.merge hspan hvalue]
    · rename_i name
      rw [Move.startsWith_tokens, Move.startsWith_tokens]
      split_ifs
      · refine .ok ⟨?_, rfl, htail⟩
        simp only [Move.PropertyMoved, Property.relocated, Name.relocated, hlocation]
      · rw [hlocation]
        exact ih.keyed (.name ⟨s.location span, name⟩) hs hm hspan htail
    · rename_i text
      rw [hlocation]
      exact ih.keyed (.string (s.location span) text) hs hm hspan htail
    · rename_i value
      rw [hlocation]
      exact ih.keyed (.number (s.location span) value) hs hm hspan htail
    · rename_i word
      rw [hlocation]
      exact ih.keyed (.name ⟨s.location span, word.text⟩) hs hm hspan htail
    · exact .error _ _

theorem keyed_succ {span : Span} (hspan : span.Within v.length) (key : Key) :
    Carried (v.Ahead v.PropertyMoved) (parseKeyed s (n + 1) span key ts)
      (parseKeyed s' (m + 1) (span.shift v.offset) (key.relocated v.relocate) (v.tokens ts)) := by
  rw [parseKeyed, parseKeyed]
  refine (Move.carried_mark .colon hts).bind ?_
  rintro ⟨a, us⟩ ⟨_, _⟩ ⟨⟨rfl, -⟩, rfl, hus⟩
  refine (ih.expr hs hm hus).bind ?_
  rintro ⟨value, rest⟩ ⟨_, _⟩ ⟨⟨rfl, hvalue⟩, rfl, hrest⟩
  refine .ok ⟨?_, rfl, hrest⟩
  simp only [Move.PropertyMoved, Property.relocated, hs.node_span, hs.merge hspan hvalue]

omit hts in
theorem pieces_succ {base : Nat} {ps : List Piece}
    (hps : ∀ p ∈ ps, (p.spanFrom base).stop ≤ v.length) :
    Carried v.ListMoved (parsePieces s base (n + 1) ps)
      (parsePieces s' (base + v.offset) (m + 1) ps) := by
  match ps with
  | [] => exact .ok rfl
  | .text offset chars :: ps =>
    obtain ⟨hp, hps⟩ := List.forall_mem_cons.1 hps
    rw [parsePieces, parsePieces]
    split_ifs
    · exact ih.pieces hs hm hps
    · refine (ih.pieces hs hm hps).bind ?_
      rintro parts _ rfl
      refine .ok ?_
      have hspan : ((Span.mk offset (offset + byteLength chars)).shift base).Within v.length := by
        simp only [Piece.spanFrom, Piece.offset, Piece.chars] at hp
        exact ⟨by simp only [Span.shift]; omega, by simp only [Span.shift]; omega⟩
      have hshift : (Span.mk offset (offset + byteLength chars)).shift (base + v.offset) =
          ((Span.mk offset (offset + byteLength chars)).shift base).shift v.offset := by
        simp only [Span.shift, Nat.add_assoc]
      simp only [Move.ListMoved, relocatedList, Node.relocated, hshift, hs.location _ hspan]
  | .code offset chars :: ps =>
    obtain ⟨hp, hps⟩ := List.forall_mem_cons.1 hps
    have hstart : base + v.offset + offset = base + offset + v.offset := Nat.add_right_comm ..
    have hinner : v.Leads ⟨s.lines, base + offset + byteLength chars, true⟩
        ⟨s'.lines, base + offset + v.offset + byteLength chars, true⟩ :=
      ⟨rfl, hs.location, hs.span, hs.within⟩
    rw [parsePieces, parsePieces, hstart]
    refine (Move.carried_tokens hp).bind ?_
    rintro us _ ⟨rfl, hus⟩
    refine (ih.expr hinner hm hus).bind ?_
    rintro ⟨part, rest⟩ ⟨_, _⟩ ⟨⟨rfl, -⟩, rfl, -⟩
    refine (Move.carried_finished rest).bind ?_
    rintro _ _ -
    refine (ih.pieces hs hm hps).bind ?_
    rintro parts _ rfl
    exact .ok rfl

omit ih hs hm hts in
theorem exists_fuel (h : n + 1 ≤ m) : ∃ k, m = k + 1 ∧ n ≤ k :=
  ⟨m - 1, by omega, by omega⟩

omit hs hm hts in
theorem succ : ParsesMoved v (n + 1) where
  expr hs hm hts := by
    obtain ⟨m, rfl, hn⟩ := exists_fuel hm
    exact ih.expr_succ hs hn hts
  binary hs hm hts := by
    obtain ⟨m, rfl, hn⟩ := exists_fuel hm
    exact ih.binary_succ hs hn hts _
  operators hs hm hleft hts := by
    obtain ⟨m, rfl, hn⟩ := exists_fuel hm
    exact ih.operators_succ hs hn hts _ hleft
  unary hs hm hts := by
    obtain ⟨m, rfl, hn⟩ := exists_fuel hm
    exact ih.unary_succ hs hn hts
  member hs hm hts := by
    obtain ⟨m, rfl, hn⟩ := exists_fuel hm
    exact ih.member_succ hs hn hts
  accesses hs hm hobject hts := by
    obtain ⟨m, rfl, hn⟩ := exists_fuel hm
    exact ih.accesses_succ hs hn hts hobject
  items hs hm hts := by
    obtain ⟨m, rfl, hn⟩ := exists_fuel hm
    exact ih.items_succ hs hn hts _
  primary hs hm hts := by
    obtain ⟨m, rfl, hn⟩ := exists_fuel hm
    exact ih.primary_succ hs hn hts
  properties hs hm hts := by
    obtain ⟨m, rfl, hn⟩ := exists_fuel hm
    exact ih.properties_succ hs hn hts
  property hs hm hts := by
    obtain ⟨m, rfl, hn⟩ := exists_fuel hm
    exact ih.property_succ hs hn hts
  keyed key hs hm hspan hts := by
    obtain ⟨m, rfl, hn⟩ := exists_fuel hm
    exact ih.keyed_succ hs hn hts hspan key
  pieces hs hm hps := by
    obtain ⟨m, rfl, hn⟩ := exists_fuel hm
    exact ih.pieces_succ hs hn hps

omit ih hs hm hts in
theorem all (v : Move) (n : Nat) : ParsesMoved v n := by
  induction n with
  | zero => exact zero
  | succ n ih => exact ih.succ

end ParsesMoved

/-! ## A source within a longer one -/

def Move.behind (front cs : List Char) : Move :=
  ⟨Location.moved (byteLength front), byteLength front, byteLength cs⟩

theorem Move.leads_behind {front : List Char} (hfront : '\n' ∉ front) (cs back : List Char)
    (stop stop' : Nat) (nested : Bool) :
    (Move.behind front cs).Leads ⟨.ofChars cs, stop, nested⟩
      ⟨.ofChars (front ++ (cs ++ back)), stop', nested⟩ where
  nested := rfl
  location span h := by
    have hstart := LineIndex.position_behind hfront cs back h.1
    have hstop := LineIndex.position_behind hfront cs back h.2
    simp only [Setting.location, LineIndex.location, Span.shift, Move.behind, hstart, hstop]
    rfl
  span _ := rfl
  within _ := ⟨Nat.min_le_right _ _, Nat.min_le_right _ _⟩

/-- A text is parsed to the same tree behind a piece of a line, whatever follows it. -/
theorem parseExpr_behind {front cs : List Char} (hfront : '\n' ∉ front) (back : List Char)
    {stop : Nat} (stop' : Nat) {nested : Bool} {n m : Nat} {ts : List Lexeme} {e : Node}
    (hts : Lexed 0 cs ts) (h : parseExpr ⟨.ofChars cs, stop, nested⟩ n ts = .ok (e, []))
    (hm : n ≤ m) :
    parseExpr ⟨.ofChars (front ++ (cs ++ back)), stop', nested⟩ m
        (ts.map (·.shift (byteLength front))) =
      .ok (e.relocated (Location.moved (byteLength front)), []) := by
  have hwithin : ∀ t ∈ ts, t.Within (byteLength cs) := Move.within_of_lexed hts (by omega)
  have hleads := Move.leads_behind hfront cs back stop stop' nested
  obtain ⟨⟨_, _⟩, hrun, ⟨rfl, -⟩, rfl, -⟩ := (ParsesMoved.all _ n).expr hleads hm hwithin _ h
  exact hrun

end VueToSan.Expr
