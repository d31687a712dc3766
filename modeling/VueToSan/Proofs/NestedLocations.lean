import VueToSan.Proofs.Derivations
import VueToSan.Proofs.FaithfulSpans
import VueToSan.Proofs.StableTokens

/-!
# Nested locations

Every location of a parsed tree is a range of characters of the source, with the lines and columns
at which it starts and stops. The parts of a tree lie in its location, one after the other, and so
do those of its parts, down to the code in template strings.
-/

namespace VueToSan

open VueToSan.Text

/-! ## Positions -/

def Position.step (p : Position) (c : Char) : Position :=
  if c = '\n' then ⟨p.line + 1, 1, p.offset + c.utf8Size⟩
  else ⟨p.line, p.column + c.utf8Size, p.offset + c.utf8Size⟩

def Position.behind (text : List Char) : Position := text.foldl Position.step ⟨1, 1, 0⟩

def Position.IsIn (source : String) (p : Position) : Prop :=
  ∃ before after, source.toList = before ++ after ∧ p = .behind before

structure Location.IsIn (source : String) (l : Location) : Prop where
  start : l.start.IsIn source
  stop : l.stop.IsIn source
  order : l.start.offset ≤ l.stop.offset

theorem startsFrom_gt (offset : Nat) (cs : List Char) :
    ∀ n ∈ LineIndex.startsFrom offset cs, offset < n := by
  induction cs generalizing offset with
  | nil => exact List.forall_mem_nil _
  | cons c cs ih =>
    have hc := c.utf8Size_pos
    unfold LineIndex.startsFrom
    dsimp only
    split
    · exact List.forall_mem_cons.2 ⟨by omega, fun n hn => by have := ih _ n hn; omega⟩
    · exact fun n hn => by have := ih _ n hn; omega

theorem position_walk (front : List Nat) (start offset : Nat) (before after : List Char)
    (hfront : ∀ n ∈ front, n ≤ offset) (hstart : start ≤ offset) :
    LineIndex.position ⟨front ++ start :: LineIndex.startsFrom offset (before ++ after),
        offset + byteLength (before ++ after)⟩ (offset + byteLength before) =
      before.foldl Position.step ⟨front.length + 1, offset - start + 1, offset⟩ := by
  induction before generalizing front start offset with
  | nil =>
    have hcount : (front ++ start :: LineIndex.startsFrom offset after).countP (· ≤ offset) =
        front.length + 1 := by
      have hlater : (LineIndex.startsFrom offset after).countP (· ≤ offset) = 0 := by
        rw [List.countP_eq_zero]
        intro n hn
        have := startsFrom_gt offset after n hn
        simpa using this
      have hall : front.countP (· ≤ offset) = front.length := by
        rw [List.countP_eq_length]
        simpa using hfront
      rw [List.countP_append, List.countP_cons, hlater, hall]
      simp [hstart]
    simp [LineIndex.position, LineIndex.lineCol, hcount]
  | cons c before ih =>
    rw [List.cons_append, LineIndex.startsFrom, List.foldl_cons, byteLength_cons, byteLength_cons,
      ← Nat.add_assoc, ← Nat.add_assoc]
    by_cases hc : c = '\n'
    · have hnext := ih (front ++ [start]) (offset + c.utf8Size) (offset + c.utf8Size)
        (List.forall_mem_append.2 ⟨fun n hn => by have := hfront n hn; omega, by simp; omega⟩)
        (Nat.le_refl _)
      simpa [Position.step, hc] using hnext
    · have hnext := ih front start (offset + c.utf8Size)
        (fun n hn => by have := hfront n hn; omega) (by omega)
      have hcolumn : offset + c.utf8Size - start + 1 = offset - start + 1 + c.utf8Size := by omega
      rw [hcolumn] at hnext
      simpa [Position.step, hc] using hnext

theorem position_append (before after : List Char) :
    (LineIndex.ofChars (before ++ after)).position (byteLength before) = .behind before := by
  have hwalk := position_walk [] 0 0 before after (List.forall_mem_nil _) (Nat.le_refl _)
  simpa [LineIndex.ofChars, Position.behind] using hwalk

/-! ## Boundaries of characters -/

def IsBoundary (source : String) (n : Nat) : Prop :=
  ∃ before after, source.toList = before ++ after ∧ byteLength before = n

theorem offset_foldl_step (p : Position) (cs : List Char) :
    (cs.foldl Position.step p).offset = p.offset + byteLength cs := by
  induction cs generalizing p with
  | nil => rfl
  | cons c cs ih =>
    have hstep : (p.step c).offset = p.offset + c.utf8Size := by
      unfold Position.step
      split <;> rfl
    rw [List.foldl_cons, ih, hstep, byteLength_cons, Nat.add_assoc]

variable {source : String}

theorem IsBoundary.position {n : Nat} (h : IsBoundary source n) :
    ((LineIndex.ofChars source.toList).position n).IsIn source ∧
      ((LineIndex.ofChars source.toList).position n).offset = n := by
  obtain ⟨before, after, hsource, rfl⟩ := h
  rw [hsource, position_append]
  refine ⟨⟨before, after, hsource, rfl⟩, ?_⟩
  rw [Position.behind, offset_foldl_step, Nat.zero_add]

theorem isIn_location {x y : Nat} (hx : IsBoundary source x) (hy : IsBoundary source y)
    (hxy : x ≤ y) : ((LineIndex.ofChars source.toList).location ⟨x, y⟩).IsIn source where
  start := hx.position.1
  stop := hy.position.1
  order := by
    simp only [LineIndex.location, hx.position.2, hy.position.2, hxy]

theorem span_location {x y : Nat} (hx : IsBoundary source x) (hy : IsBoundary source y) :
    ((LineIndex.ofChars source.toList).location ⟨x, y⟩).span = ⟨x, y⟩ := by
  simp only [LineIndex.location, Location.span, hx.position.2, hy.position.2]

theorem Laid.tight {lo hi : Nat} {ss : List Span} {a b : Span} (h : Laid lo hi ss)
    (ha : ss.head? = some a) (hb : ss.getLast? = some b) :
    lo ≤ a.start ∧ b.stop ≤ hi ∧ Laid a.start b.stop ss := by
  induction ss generalizing lo a with
  | nil => cases ha
  | cons s ss ih =>
    obtain rfl := Option.some.inj ha
    obtain ⟨hlo, hrange, hrest⟩ := h
    refine ⟨hlo, ?_⟩
    cases ss with
    | nil =>
      obtain rfl := Option.some.inj hb
      exact ⟨hrest, Nat.le_refl _, hrange, Nat.le_refl _⟩
    | cons t ss =>
      obtain ⟨hgap, hhi, htight⟩ := ih hrest rfl (by simpa using hb)
      exact ⟨hhi, Nat.le_refl _, hrange, htight.since hgap⟩

theorem Laid.merge {lo hi : Nat} {ss : List Span} {a b : Span} (h : Laid lo hi ss)
    (ha : ss.head? = some a) (hb : ss.getLast? = some b) : a.merge b = ⟨a.start, b.stop⟩ := by
  have htight := (h.tight ha hb).2.2
  have hfirst := htight.covers (List.mem_of_mem_head? ha)
  have hlast := htight.covers (List.mem_of_mem_getLast? hb)
  unfold Span.Covers at hfirst hlast
  rw [Span.merge, Span.mk.injEq]
  dsimp only at hfirst hlast
  omega

end VueToSan

namespace VueToSan.Expr

open VueToSan.Text

/-! ## Trees of locations -/

/-- The location of a tree and those of its parts, in the order of the source. -/
inductive LocationTree where
  | node (location : Location) (parts : List LocationTree)

namespace LocationTree

def location : LocationTree → Location
  | node location _ => location

def span (tree : LocationTree) : Span := tree.location.span

/-- All locations are in the source, and parts lie in the location of the whole, one after the
other. -/
inductive Nests (source : String) : LocationTree → Prop where
  | node {location : Location} {parts : List LocationTree} : location.IsIn source →
      Laid location.start.offset location.stop.offset (parts.map (·.span)) →
      (∀ part ∈ parts, Nests source part) → Nests source (node location parts)

end LocationTree

def Key.location : Key → Location
  | .name n => n.location
  | .string location _ => location
  | .number location _ => location

mutual

def Node.locations : Node → LocationTree
  | .identifier name => .node name.location []
  | .literal location _ => .node location []
  | .array location elements => .node location (nodeLocations elements)
  | .object location properties => .node location (propertyLocations properties)
  | .unary location _ argument => .node location [argument.locations]
  | .binary location _ left right => .node location [left.locations, right.locations]
  | .logical location _ left right => .node location [left.locations, right.locations]
  | .conditional location test consequent alternate =>
    .node location [test.locations, consequent.locations, alternate.locations]
  | .field location object name => .node location [object.locations, .node name.location []]
  | .index location object index => .node location [object.locations, index.locations]
  | .call location callee arguments => .node location (callee.locations :: nodeLocations arguments)
  | .template location parts => .node location (nodeLocations parts)

def nodeLocations : List Node → List LocationTree
  | [] => []
  | e :: es => e.locations :: nodeLocations es

def Property.locations : Property → LocationTree
  | .shorthand name => .node name.location [.node name.location []]
  | .keyed location key value => .node location [.node key.location [], value.locations]
  | .computed location key value => .node location [key.locations, value.locations]

def propertyLocations : List Property → List LocationTree
  | [] => []
  | p :: ps => p.locations :: propertyLocations ps

end

def Filter.locations (f : Filter) : LocationTree :=
  .node f.location (nodeLocations f.arguments)

def Piped.locations (p : Piped) : LocationTree :=
  .node p.location (p.expression.locations :: p.filters.map Filter.locations)

/-! ## Tokens and parts in a row -/

variable {source : String}

def Lexeme.IsRead (source : String) (t : Lexeme) : Prop :=
  ∃ c body, StandsAt 0 source.toList t.span (c :: body) ∧ Scans c body [] t.token

structure Ahead (source : String) (lo hi : Nat) (ts : List Lexeme) : Prop where
  laid : Laid lo hi (ts.map (·.span))
  read : ∀ t ∈ ts, t.IsRead source

/-- Spans of tokens and of trees lie one after the other between two offsets, and those of the parts
are among them. -/
structure Spread (source : String) (lo hi : Nat) (spans : List Span) (parts : List LocationTree) :
    Prop where
  laid : Laid lo hi spans
  bounds : ∀ s ∈ spans, IsBoundary source s.start ∧ IsBoundary source s.stop
  kept : (parts.map (·.span)).Sublist spans
  nests : ∀ part ∈ parts, part.Nests source

namespace Spread

variable {lo mid hi : Nat} {spans spans' : List Span} {parts parts' : List LocationTree}

theorem nil (h : lo ≤ hi) : Spread source lo hi [] [] :=
  ⟨h, List.forall_mem_nil _, .slnil, List.forall_mem_nil _⟩

theorem append (h : Spread source lo mid spans parts) (h' : Spread source mid hi spans' parts') :
    Spread source lo hi (spans ++ spans') (parts ++ parts') where
  laid := h.laid.append h'.laid
  bounds := List.forall_mem_append.2 ⟨h.bounds, h'.bounds⟩
  kept := by
    rw [List.map_append]
    exact h.kept.append h'.kept
  nests := List.forall_mem_append.2 ⟨h.nests, h'.nests⟩

theorem upTo (h : Spread source lo mid spans parts) (hmid : mid ≤ hi) :
    Spread source lo hi spans parts :=
  ⟨h.laid.upTo hmid, h.bounds, h.kept, h.nests⟩

theorem single {s : Span} (hlo : lo ≤ s.start) (hs : s.start ≤ s.stop) (hhi : s.stop ≤ hi)
    (hstart : IsBoundary source s.start) (hstop : IsBoundary source s.stop)
    (hparts : Laid s.start s.stop (parts.map (·.span)))
    (hnests : ∀ part ∈ parts, part.Nests source) :
    Spread source lo hi [((LineIndex.ofChars source.toList).location s).span]
      [.node ((LineIndex.ofChars source.toList).location s) parts] := by
  have hspan := span_location hstart hstop
  have hparts' : Laid ((LineIndex.ofChars source.toList).location s).span.start
      ((LineIndex.ofChars source.toList).location s).span.stop (parts.map (·.span)) := by
    rw [hspan]
    exact hparts
  constructor
  · rw [hspan]
    exact ⟨hlo, hs, hhi⟩
  · rw [hspan]
    simpa using ⟨hstart, hstop⟩
  · exact List.Sublist.refl _
  · simpa using LocationTree.Nests.node (isIn_location hstart hstop hs) hparts' hnests

theorem wrap {a b : Span} (h : Spread source lo hi spans parts) (ha : spans.head? = some a)
    (hb : spans.getLast? = some b) :
    Spread source lo hi [((LineIndex.ofChars source.toList).location ⟨a.start, b.stop⟩).span]
      [.node ((LineIndex.ofChars source.toList).location ⟨a.start, b.stop⟩) parts] := by
  obtain ⟨hlo, hhi, htight⟩ := h.laid.tight ha hb
  exact single hlo htight.le hhi (h.bounds a (List.mem_of_mem_head? ha)).1
    (h.bounds b (List.mem_of_mem_getLast? hb)).2 (htight.sublist h.kept) h.nests

end Spread

/-- From tokens ahead a parse takes spans and gives parts; the tokens behind it are still ahead. -/
def Placed (source : String) (ts : List Lexeme) (spans : List Span) (parts : List LocationTree)
    (rest : List Lexeme) : Prop :=
  ∀ lo hi, Ahead source lo hi ts →
    ∃ mid, Spread source lo mid spans parts ∧ Ahead source mid hi rest

theorem StandsAt.bounds {span : Span} {text : List Char}
    (h : StandsAt 0 source.toList span text) :
    IsBoundary source span.start ∧ IsBoundary source span.stop ∧ span.start ≤ span.stop := by
  obtain ⟨before, after, hsource, rfl⟩ := h
  refine ⟨⟨before, _, hsource, by simp⟩, ⟨before ++ text, after, by simp [hsource], by simp⟩, ?_⟩
  exact Nat.le_add_right _ _

theorem Lexeme.IsRead.bounds {t : Lexeme} (h : t.IsRead source) :
    IsBoundary source t.span.start ∧ IsBoundary source t.span.stop := by
  obtain ⟨c, body, hstands, -⟩ := h
  exact ⟨hstands.bounds.1, hstands.bounds.2.1⟩

namespace Placed

variable {s : Setting} {ts us vs rest : List Lexeme} {spans spans' : List Span}
  {parts parts' : List LocationTree}

theorem nil (ts : List Lexeme) : Placed source ts [] [] ts :=
  fun lo _ h => ⟨lo, .nil (Nat.le_refl lo), h⟩

theorem trans (h : Placed source ts spans parts us) (h' : Placed source us spans' parts' rest) :
    Placed source ts (spans ++ spans') (parts ++ parts') rest := by
  intro lo hi hts
  obtain ⟨mid, hspread, hus⟩ := h lo hi hts
  obtain ⟨mid', hspread', hrest⟩ := h' mid hi hus
  exact ⟨mid', hspread.append hspread', hrest⟩

theorem token (t : Lexeme) (ts : List Lexeme) : Placed source (t :: ts) [t.span] [] ts := by
  intro lo hi h
  obtain ⟨hlo, hrange, hrest⟩ := h.laid
  have hspread : Spread source lo t.span.stop [t.span] [] :=
    ⟨⟨hlo, hrange, Nat.le_refl _⟩, by simpa using (h.read t List.mem_cons_self).bounds,
      List.nil_sublist _, List.forall_mem_nil _⟩
  exact ⟨t.span.stop, hspread, hrest, fun u hu => h.read u (List.mem_cons_of_mem t hu)⟩

theorem skip (t : Lexeme) (ts : List Lexeme) : Placed source (t :: ts) [] [] ts := by
  intro lo hi h
  obtain ⟨mid, hspread, hts⟩ := token t ts lo hi h
  exact ⟨mid, .nil hspread.laid.le, hts⟩

theorem wrap {a b : Span} (h : Placed source ts spans parts rest)
    (hs : s.lines = .ofChars source.toList) (ha : spans.head? = some a)
    (hb : spans.getLast? = some b) :
    Placed source ts [(s.location ⟨a.start, b.stop⟩).span]
      [.node (s.location ⟨a.start, b.stop⟩) parts] rest := by
  intro lo hi hts
  obtain ⟨mid, hspread, hrest⟩ := h lo hi hts
  rw [Setting.location, hs]
  exact ⟨mid, hspread.wrap ha hb, hrest⟩

theorem join {a b : Span} {first inner last : List LocationTree}
    (hs : s.lines = .ofChars source.toList) (h : Placed source ts [a] first us)
    (h' : Placed source us spans inner vs) (h'' : Placed source vs [b] last rest) :
    Placed source ts [(s.location (a.merge b)).span]
      [.node (s.location (a.merge b)) (first ++ (inner ++ last))] rest := by
  intro lo hi hts
  have hall := h.trans (h'.trans h'')
  have ha : ([a] ++ (spans ++ [b])).head? = some a := rfl
  have hb : ([a] ++ (spans ++ [b])).getLast? = some b := by
    rw [← List.append_assoc, List.getLast?_concat]
  obtain ⟨mid, hspread, -⟩ := hall lo hi hts
  rw [hspread.laid.merge ha hb]
  exact hall.wrap hs ha hb lo hi hts

theorem close {a : Span} {c : Lexeme} {first inner : List LocationTree}
    (hs : s.lines = .ofChars source.toList) (h : Placed source ts [a] first us)
    (h' : Placed source us spans inner (c :: rest)) :
    Placed source ts [(s.location (a.merge c.span)).span]
      [.node (s.location (a.merge c.span)) (first ++ inner)] rest := by
  have hjoin := join hs h h' (.token c rest)
  rwa [List.append_nil] at hjoin

theorem leaf (hs : s.lines = .ofChars source.toList) (t : Lexeme) (ts : List Lexeme) :
    Placed source (t :: ts) [(s.location t.span).span] [.node (s.location t.span) []] ts :=
  (token t ts).wrap (b := t.span) hs rfl rfl

theorem name (hs : s.lines = .ofChars source.toList) (t : Lexeme) (ts : List Lexeme) :
    Placed source (t :: ts) [t.span] [.node (s.location t.span) []] ts := by
  intro lo hi h
  obtain ⟨hstart, hstop⟩ := (h.read t List.mem_cons_self).bounds
  have hspan : (s.location t.span).span = t.span := by
    rw [Setting.location, hs]
    exact span_location hstart hstop
  have hleaf := leaf hs t ts lo hi h
  rwa [hspan] at hleaf

end Placed

/-! ## Pieces of templates -/

theorem byteLength_reverse (cs : List Char) : byteLength cs.reverse = byteLength cs := by
  induction cs with
  | nil => rfl
  | cons c cs ih =>
    rw [List.reverse_cons, byteLength_append, ih, byteLength_cons, byteLength_cons, byteLength_nil]
    omega

def Piece.chars : Piece → List Char
  | .text _ chars => chars
  | .code _ chars => chars

def Piece.offset : Piece → Nat
  | .text offset _ => offset
  | .code offset _ => offset

def Piece.spanFrom (p : Piece) (base : Nat) : Span :=
  ⟨base + p.offset, base + p.offset + byteLength p.chars⟩

structure Cuts (base : Nat) (text : List Char) (lo : Nat) (ps : List Piece) : Prop where
  laid : Laid (base + lo) (base + byteLength text) (ps.map (·.spanFrom base))
  stands : ∀ p ∈ ps, StandsAt base text (p.spanFrom base) p.chars

/-- The characters `cs` of a text are next, behind those that were seen of a piece. -/
def Midway (text : List Char) (offset : Nat) (seen cs : List Char) : Prop :=
  ∃ before, text = before ++ (seen.reverse ++ cs) ∧ byteLength before = offset

namespace Midway

variable {text seen cs : List Char} {offset base : Nat}

theorem step {c : Char} (h : Midway text offset seen (c :: cs)) :
    Midway text offset (c :: seen) cs := by
  obtain ⟨before, htext, hoffset⟩ := h
  exact ⟨before, by simp [htext], hoffset⟩

theorem next (mark : List Char) (h : Midway text offset seen (mark ++ cs)) :
    Midway text (offset + byteLength seen + byteLength mark) [] cs := by
  obtain ⟨before, htext, rfl⟩ := h
  refine ⟨before ++ (seen.reverse ++ mark), by simp [htext], ?_⟩
  rw [byteLength_append, byteLength_append, byteLength_reverse, Nat.add_assoc]

theorem le (h : Midway text offset seen cs) : offset + byteLength seen ≤ byteLength text := by
  obtain ⟨before, rfl, rfl⟩ := h
  simp only [byteLength_append, byteLength_reverse]
  omega

theorem cuts {p : Piece} {ps : List Piece} {lo : Nat} (h : Midway text offset seen cs)
    (hoffset : p.offset = offset) (hchars : p.chars = seen.reverse) (hps : Cuts base text lo ps)
    (hlo : offset + byteLength seen ≤ lo) : Cuts base text offset (p :: ps) := by
  have hspan : p.spanFrom base = ⟨base + offset, base + offset + byteLength seen⟩ := by
    rw [Piece.spanFrom, hoffset, hchars, byteLength_reverse]
  constructor
  · rw [List.map_cons, hspan]
    exact ⟨Nat.le_refl _, Nat.le_add_right _ _, hps.laid.since (by dsimp only; omega)⟩
  · refine List.forall_mem_cons.2 ⟨?_, hps.stands⟩
    obtain ⟨before, htext, rfl⟩ := h
    rw [hspan, hchars]
    exact ⟨before, cs, htext, by rw [byteLength_reverse]⟩

end Midway

theorem cuts_nil {base lo : Nat} {text : List Char} (h : lo ≤ byteLength text) :
    Cuts base text lo [] :=
  ⟨Nat.add_le_add_left h base, List.forall_mem_nil _⟩

theorem cuts_split (base : Nat) (text : List Char) :
    (∀ offset seen cs, Midway text offset seen cs →
      Cuts base text offset (splitText offset seen cs)) ∧
    ∀ offset seen depth quote cs, Midway text offset seen cs →
      Cuts base text offset (splitCode offset seen depth quote cs) := by
  apply splitText.mutual_induct
    (fun offset seen cs => Midway text offset seen cs →
      Cuts base text offset (splitText offset seen cs))
    (fun offset seen depth quote cs => Midway text offset seen cs →
      Cuts base text offset (splitCode offset seen depth quote cs))
  -- A piece ends at the start or the end of a code and at the end of the text.
  case case2 =>
    intro offset seen cs ih h
    rw [splitText]
    exact h.cuts rfl rfl (ih (h.next ['$', '{'])) (Nat.le_add_right _ 2)
  case case4 =>
    intro offset seen h
    rw [splitText]
    exact h.cuts rfl rfl (cuts_nil h.le) (Nat.le_refl _)
  case case8 =>
    intro offset seen depth cs hdepth _ _ ih h
    simp only [splitCode, hdepth, if_true]
    exact h.cuts rfl rfl (ih (h.next ['}'])) (Nat.le_add_right _ 1)
  case case12 =>
    intro offset seen depth quote h
    rw [splitCode]
    refine h.cuts rfl rfl ?_ (Nat.le_refl _)
    exact (h.next []).cuts rfl rfl (cuts_nil (h.next []).le) (Nat.le_refl _)
  case case1 =>
    intro offset seen c cs ih h
    rw [splitText]
    exact ih h.step.step
  case case5 =>
    intro offset seen depth quote c cs ih h
    rw [splitCode]
    exact ih h.step.step
  -- Any other character only belongs to the piece.
  all_goals
    intros
    rename_i ih h
    have hstep := ih h.step
    simp_all only [splitText, splitCode, if_true, if_false]

theorem cuts_pieces (base : Nat) (body : List Char) : Cuts base body 0 (pieces body) :=
  (cuts_split base body).1 0 [] body ⟨[], rfl, rfl⟩

theorem scan_template {c : Char} {cs : List Char} {body : String} {more : Nat}
    (h : scan c cs = .token (.template body) more) :
    c = '\x60' ∧ ∃ rest, cs = body.toList ++ '\x60' :: rest ∧ more = body.toList.length + 1 := by
  unfold scan at h
  split_ifs at h with hword hquote hback
  · unfold wordToken at h
    dsimp only at h
    split at h <;> cases h
  · unfold scanString at h
    split at h <;> cases h
  · refine ⟨hback, ?_⟩
    unfold scanTemplate at h
    split at h
    · rename_i text htext
      obtain ⟨rest, hrest, -⟩ := templateBody?_closed htext
      cases h
      exact ⟨rest, by simpa using hrest, by simp⟩
    · cases h
  · exfalso
    unfold scanNumber? scanPunct at h
    split at h
    · dsimp only at h
      split_ifs at h
      all_goals cases h
    · split at h
      · cases h
      · dsimp only [Option.getD_none] at h
        split at h <;> cases h

theorem Scans.template {c : Char} {text : List Char} {body : String}
    (h : Scans c text [] (.template body)) : c :: text = '\x60' :: (body.toList ++ ['\x60']) := by
  have hscan := h.scan [] List.nil_prefix
  rw [List.append_nil] at hscan
  obtain ⟨rfl, rest, rfl, hlength⟩ := scan_template hscan
  have hrest : rest = [] := by
    rw [← List.length_eq_zero_iff]
    simp only [List.length_append, List.length_cons] at hlength
    omega
  rw [hrest]

/-! ## Parsed trees -/

theorem StandsAt.inner {pos : Nat} {cs text part : List Char} {span span' : Span}
    (h : StandsAt pos cs span text) (h' : StandsAt span.start text span' part) :
    StandsAt pos cs span' part := by
  obtain ⟨before, after, rfl, rfl⟩ := h
  obtain ⟨before', after', rfl, rfl⟩ := h'
  refine ⟨before ++ before', after' ++ after, by simp, ?_⟩
  simp only [byteLength_append, Nat.add_assoc]

theorem Lexed.laid {pos : Nat} {cs : List Char} {ts : List Lexeme} (h : Lexed pos cs ts) :
    Laid pos (pos + byteLength cs) (ts.map (·.span)) := by
  induction h with
  | nil => exact Nat.le_refl _
  | space _ _ ih =>
    rw [byteLength_cons, ← Nat.add_assoc]
    exact ih.since (Nat.le_add_right _ _)
  | token _ _ _ ih =>
    rw [← List.cons_append, byteLength_append, ← Nat.add_assoc]
    exact ⟨Nat.le_refl _, Nat.le_add_right _ _, ih⟩

theorem Lexed.ahead {pos : Nat} {cs : List Char} {ts : List Lexeme} (h : Lexed pos cs ts)
    (hcs : StandsAt 0 source.toList ⟨pos, pos + byteLength cs⟩ cs) :
    Ahead source pos (pos + byteLength cs) ts where
  laid := h.laid
  read t ht := by
    obtain ⟨c, body, hstands, -, hscans⟩ := h.stands t ht
    exact ⟨c, body, hcs.inner hstands, hscans⟩

theorem key?_location {t : Token} {location : Location} {key : Key}
    (h : t.key? location = some key) : key.location = location := by
  unfold Token.key? at h
  split at h <;> cases h <;> rfl

def PiecesPlaced (source : String) (base : Nat) (ps : List Piece) (spans : List Span)
    (parts : List LocationTree) : Prop :=
  ∀ lo hi, Laid lo hi (ps.map (·.spanFrom base)) →
    (∀ p ∈ ps, StandsAt 0 source.toList (p.spanFrom base) p.chars) →
    Spread source lo hi spans parts

theorem PiecesPlaced.nil (base : Nat) : PiecesPlaced source base [] [] [] :=
  fun _ _ hlaid _ => .nil hlaid

theorem PiecesPlaced.cons {base : Nat} {p : Piece} {ps : List Piece} {spans spans' : List Span}
    {parts parts' : List LocationTree}
    (h : StandsAt 0 source.toList (p.spanFrom base) p.chars →
      Spread source (p.spanFrom base).start (p.spanFrom base).stop spans parts)
    (hps : PiecesPlaced source base ps spans' parts') :
    PiecesPlaced source base (p :: ps) (spans ++ spans') (parts ++ parts') := by
  intro lo hi hlaid hstands
  obtain ⟨hlo, -, hrest⟩ := hlaid
  obtain ⟨hp, hstands⟩ := List.forall_mem_cons.1 hstands
  have hfirst : Spread source lo (p.spanFrom base).start [] [] := .nil hlo
  exact (hfirst.append (h hp)).append (hps _ hi hrest hstands)

theorem PiecesPlaced.part {base : Nat} {p : Piece} {ps : List Piece} {span : Span}
    {spans : List Span} {part : LocationTree} {parts : List LocationTree}
    (h : StandsAt 0 source.toList (p.spanFrom base) p.chars →
      Spread source (p.spanFrom base).start (p.spanFrom base).stop [span] [part])
    (hps : PiecesPlaced source base ps spans parts) :
    PiecesPlaced source base (p :: ps) (span :: spans) (part :: parts) :=
  PiecesPlaced.cons h hps

theorem PiecesPlaced.template {s : Setting} {body : String} {span : Span} {spans : List Span}
    {parts : List LocationTree} (hs : s.lines = .ofChars source.toList)
    (h : PiecesPlaced source (span.start + 1) (pieces body.toList) spans parts)
    (ts : List Lexeme) :
    Placed source (⟨.template body, span⟩ :: ts) [(s.location span).span]
      [.node (s.location span) parts] ts := by
  intro lo hi hts
  obtain ⟨hlo, hrange, hrest⟩ := hts.laid
  have hread := hts.read _ List.mem_cons_self
  obtain ⟨hstart, hstop⟩ := hread.bounds
  obtain ⟨c, text, hstands, hscans⟩ := hread
  rw [hscans.template] at hstands
  have hbody : StandsAt 0 source.toList ⟨span.start + 1, span.start + 1 + byteLength body.toList⟩
      body.toList := hstands.inner ⟨['\x60'], ['\x60'], rfl, rfl⟩
  have hcuts := cuts_pieces (span.start + 1) body.toList
  have hspread := h _ _ hcuts.laid fun p hp => hbody.inner (hcuts.stands p hp)
  have hend : span.start + 1 + byteLength body.toList ≤ span.stop := by
    obtain ⟨before, after, -, hspan⟩ := hstands
    dsimp only at hspan
    rw [hspan, byteLength_cons, byteLength_append]
    have hquote : '\x60'.utf8Size = 1 := rfl
    dsimp only
    omega
  rw [Setting.location, hs]
  refine ⟨span.stop, .single hlo hrange (Nat.le_refl _) hstart hstop ?_ hspread.nests, hrest,
    fun t ht => hts.read t (List.mem_cons_of_mem _ ht)⟩
  exact ((hspread.laid.sublist hspread.kept).since (Nat.le_add_right _ 1)).upTo hend

mutual

theorem ExprDerived.placed {s : Setting} {ts rest : List Lexeme} {e : Node} :
    ExprDerived s ts e rest → s.lines = .ofChars source.toList →
      Placed source ts [e.span] [e.locations] rest
  | .identifier, hs => .leaf hs _ _
  | .literal _, hs => .leaf hs _ _
  | .parens h, hs => (Placed.skip _ _).trans ((h.placed hs).trans (.skip _ _))
  | .array (a := a) h, hs => (Placed.close hs (.token ⟨.punct .lbracket, a⟩ _) (h.placed hs) :)
  | .object (a := a) h, hs => (Placed.close hs (.token ⟨.punct .lbrace, a⟩ _) (h.placed hs) :)
  | .template h, hs => (h.placed hs).template hs _
  | .field h _, hs => .join hs (h.placed hs) (.skip _ _) (.name hs _ _)
  | .index h h', hs => (Placed.close hs (h.placed hs) ((Placed.skip _ _).trans (h'.placed hs)) :)
  | .call h h', hs => (Placed.close hs (h.placed hs) ((Placed.skip _ _).trans (h'.placed hs)) :)
  | .unary _ h, hs => .join hs (.token _ _) (.nil _) (h.placed hs)
  | .operator (b := b) h _ h', hs => by
    have hjoin := Placed.join hs (h.placed hs) (.skip _ _) (h'.placed hs)
    cases b.operator <;> exact hjoin
  | .conditional h h' h'', hs =>
    .join hs (h.placed hs) ((Placed.skip _ _).trans ((h'.placed hs).trans (.skip _ _)))
      (h''.placed hs)

theorem ItemsDerived.placed {s : Setting} {ts rest : List Lexeme} {es : List Node} :
    ItemsDerived s ts es rest → s.lines = .ofChars source.toList →
      Placed source ts (es.map Node.span) (nodeLocations es) rest
  | .nil, _ => .nil _
  | .last h, hs => h.placed hs
  | .more h h', hs => (h.placed hs).trans ((Placed.skip _ _).trans (h'.placed hs))

theorem PropertiesDerived.placed {s : Setting} {ts rest : List Lexeme} {ps : List Property} :
    PropertiesDerived s ts ps rest → s.lines = .ofChars source.toList →
      Placed source ts (ps.map (·.location.span)) (propertyLocations ps) rest
  | .nil, _ => .nil _
  | .last h, hs => h.placed hs
  | .more h h', hs => (h.placed hs).trans ((Placed.skip _ _).trans (h'.placed hs))

theorem PropertyDerived.placed {s : Setting} {ts rest : List Lexeme} {p : Property} :
    PropertyDerived s ts p rest → s.lines = .ofChars source.toList →
      Placed source ts [p.location.span] [p.locations] rest
  | .shorthand, hs => (Placed.name hs _ _).wrap (b := _) hs rfl rfl
  | .keyed hkey h, hs => by
    rw [Property.locations, key?_location hkey]
    exact .join hs (.name hs _ _) (.skip _ _) (h.placed hs)
  | .computed h h', hs =>
    .join hs (.token _ _) ((h.placed hs).trans ((Placed.skip _ _).trans (.skip _ _))) (h'.placed hs)

theorem PartsDerived.placed {s : Setting} {base : Nat} {ps : List Piece} {parts : List Node} :
    PartsDerived s base ps parts → s.lines = .ofChars source.toList →
      PiecesPlaced source base ps (parts.map Node.span) (nodeLocations parts)
  | .nil, _ => .nil base
  | .empty h, hs => .cons (fun _ => .nil (Nat.le_add_right _ _)) (h.placed hs)
  | @PartsDerived.text _ _ offset chars _ _ _ h, hs => by
    have hspan : (Span.mk offset (offset + byteLength chars)).shift base =
        (Piece.text offset chars).spanFrom base := by
      simp only [Span.shift, Piece.spanFrom, Piece.offset, Piece.chars, Span.mk.injEq]
      omega
    refine .part (fun hstands => ?_) (h.placed hs)
    obtain ⟨hstart, hstop, hrange⟩ := hstands.bounds
    rw [hspan, Setting.location, hs]
    exact .single (Nat.le_refl _) hrange (Nat.le_refl _) hstart hstop hrange (List.forall_mem_nil _)
  | .code hts h h', hs => by
    refine .part (fun hstands => ?_) (h'.placed hs)
    obtain ⟨mid, hspread, hend⟩ := h.placed hs _ _ ((tokenizeFrom_eq_ok.1 hts).ahead hstands)
    exact hspread.upTo hend.laid

end

theorem FiltersDerived.placed {s : Setting} {ts rest : List Lexeme} {fs : List Filter}
    (h : FiltersDerived s ts fs rest) (hs : s.lines = .ofChars source.toList) :
    Placed source ts (fs.map (·.location.span)) (fs.map Filter.locations) rest := by
  induction h with
  | nil => exact .nil _
  | @plain bar name span ts fs rest _ ih =>
    have hfilter : Placed source (⟨.punct .pipe, bar⟩ :: ⟨.ident name, span⟩ :: ts)
        ([bar] ++ [span]) ([] ++ []) ts := (Placed.token _ _).trans (.token _ _)
    exact (hfilter.wrap (b := span) hs rfl rfl).trans ih
  | @called bar name span a ts es b us fs rest hitems _ ih =>
    have harguments : Placed source (⟨.ident name, span⟩ :: ⟨.punct .lparen, a⟩ :: ts)
        (es.map Node.span) (nodeLocations es) (⟨.punct .rparen, b⟩ :: us) :=
      (Placed.skip _ _).trans ((Placed.skip _ _).trans (hitems.placed hs))
    have hfilter := (Placed.token ⟨.punct .pipe, bar⟩ _).trans (harguments.trans (.token _ us))
    have hlast : ([bar] ++ (es.map Node.span ++ [b])).getLast? = some b := by
      rw [← List.append_assoc, List.getLast?_concat]
    rw [List.append_nil] at hfilter
    exact (hfilter.wrap hs rfl hlast).trans ih

theorem Lexed.ahead_source {ts : List Lexeme} (h : Lexed 0 source.toList ts) :
    Ahead source 0 (0 + byteLength source.toList) ts :=
  h.ahead ⟨[], [], (List.append_nil _).symm, rfl⟩

/-- The locations of parsed expressions and of their filters nest. -/
theorem parse_nests (source : String) :
    (∀ p, parse source = .ok p → p.locations.Nests source) ∧
      ∀ e, parseExpression source = .ok e → e.locations.Nests source := by
  constructor
  · intro p h
    obtain ⟨ts, us, hts, hexpr, hfilters, hlocation⟩ := parse_derived h
    have hplaced : Placed source ts [p.expression.span] [p.expression.locations] us :=
      hexpr.placed rfl
    have hall := hplaced.trans (hfilters.placed rfl)
    have hlast : ([p.expression.span] ++ p.filters.map (·.location.span)).getLast? =
        some ((p.filters.getLast?.map (·.location.span)).getD p.expression.span) := by
      rw [List.singleton_append, List.getLast?_cons, List.getLast?_map]
    have hstop : ((p.filters.getLast?.map (·.location.span)).getD p.expression.span).stop =
        (p.filters.getLast?.map (·.location.stop.offset)).getD p.expression.span.stop := by
      cases p.filters.getLast? <;> rfl
    have hwhole := hall.wrap (s := .whole false source) rfl rfl hlast
    rw [hstop, ← hlocation] at hwhole
    obtain ⟨mid, hspread, -⟩ := hwhole _ _ hts.ahead_source
    exact hspread.nests _ List.mem_cons_self
  · intro e h
    obtain ⟨ts, hts, hexpr⟩ := parseExpression_derived h
    obtain ⟨mid, hspread, -⟩ := hexpr.placed rfl _ _ hts.ahead_source
    exact hspread.nests _ List.mem_cons_self

def sampleNesting : String :=
  "(a.b)[\x60é$\x7b\x60$\x7bf(c, \x7bd, [e]: 'é'\x7d)\x7d\x60\x7dy\x60] ? !g : h\n| i | j(k)"

theorem sampleNesting_nests :
    ∃ p, parse sampleNesting = .ok p ∧ p.filters.length = 2 ∧
      p.locations.Nests sampleNesting := by
  have hfilters : (parse sampleNesting).toOption.map (·.filters.length) = some 2 := by
    decide +kernel
  obtain ⟨p, hp, hlength⟩ := Option.map_eq_some_iff.1 hfilters
  rw [toOption_eq_some] at hp
  exact ⟨p, hp, hlength, (parse_nests sampleNesting).1 p hp⟩

end VueToSan.Expr
