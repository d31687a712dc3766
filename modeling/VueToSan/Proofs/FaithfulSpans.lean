import VueToSan.Proofs.Occurrence
import VueToSan.Proofs.ReadProgress

/-!
# Spans of markup that was read

The whole source is read, whatever it is. The nodes of a row stand one after the other in the source,
between the tags of the element around them, and so do the attributes of an element in its start
tag. Texts are the parts of the source under their spans. Problems are reported in the order in
which they end.
-/

namespace VueToSan

/-! ## Spans one after the other -/

/-- Spans that lie one after the other between two offsets. -/
def Laid (lo hi : Nat) : List Span → Prop
  | [] => lo ≤ hi
  | s :: ss => lo ≤ s.start ∧ s.start ≤ s.stop ∧ Laid s.stop hi ss

def Span.Covers (s t : Span) : Prop := s.start ≤ t.start ∧ t.start ≤ t.stop ∧ t.stop ≤ s.stop

namespace Laid

variable {lo mid hi : Nat} {ss ts : List Span}

theorem le (h : Laid lo hi ss) : lo ≤ hi := by
  induction ss generalizing lo with
  | nil => exact h
  | cons s ss ih =>
    have hrest := ih h.2.2
    have hstart := h.1
    have hstop := h.2.1
    omega

theorem append (h : Laid lo mid ss) (h' : Laid mid hi ts) : Laid lo hi (ss ++ ts) := by
  induction ss generalizing lo with
  | nil =>
    cases ts with
    | nil => exact Nat.le_trans h h'
    | cons t ts => exact ⟨Nat.le_trans h h'.1, h'.2⟩
  | cons s ss ih => exact ⟨h.1, h.2.1, ih h.2.2⟩

theorem upTo (h : Laid lo mid ss) (hmid : mid ≤ hi) : Laid lo hi ss := by
  have hnil : Laid mid hi [] := hmid
  simpa using h.append hnil

theorem since (hmid : lo ≤ mid) (h : Laid mid hi ss) : Laid lo hi ss := by
  have hnil : Laid lo mid [] := hmid
  exact hnil.append h

theorem covers (h : Laid lo hi ss) {s : Span} (hs : s ∈ ss) : Span.Covers ⟨lo, hi⟩ s := by
  induction ss generalizing lo with
  | nil => cases hs
  | cons t ss ih =>
    obtain ⟨hstart, hstop, hrest⟩ := h
    rcases List.mem_cons.1 hs with rfl | hs
    · exact ⟨hstart, hstop, hrest.le⟩
    · obtain ⟨hlo, hrange, hhi⟩ := ih hrest hs
      exact ⟨Nat.le_trans hstart (Nat.le_trans hstop hlo), hrange, hhi⟩

theorem pairwise (h : Laid lo hi ss) : ss.Pairwise fun s t => s.stop ≤ t.start := by
  induction ss generalizing lo with
  | nil => exact .nil
  | cons s ss ih => exact .cons (fun t ht => (h.2.2.covers ht).1) (ih h.2.2)

theorem sublist (h : Laid lo hi ss) (hts : ts.Sublist ss) : Laid lo hi ts := by
  induction hts generalizing lo with
  | slnil => exact h
  | cons s hts ih =>
    obtain ⟨hstart, hstop, hrest⟩ := h
    exact (ih hrest).since (Nat.le_trans hstart hstop)
  | cons_cons s hts ih => exact ⟨h.1, h.2.1, ih h.2.2⟩

theorem stops (h : Laid lo hi ss) : Laid lo hi (ss.map fun s => .empty s.stop) := by
  induction ss generalizing lo with
  | nil => exact h
  | cons s ss ih => exact ⟨Nat.le_trans h.1 h.2.1, Nat.le_refl _, ih h.2.2⟩

end Laid

end VueToSan

namespace VueToSan.Markup

open VueToSan.Text

def Node.span : Node → Span
  | .element e => e.head.span
  | .text _ span => span
  | .comment _ span => span

def stops (problems : List Problem) : List Span :=
  (problems.map (·.span)).map fun s => .empty s.stop

theorem stops_append (ps qs : List Problem) : stops (ps ++ qs) = stops ps ++ stops qs := by
  simp [stops]

/-! ## Start tags and end tags -/

theorem readAttrs_laid (n : Nat) (c : Cursor) :
    Laid c.pos (readAttrs n c).2.pos ((readAttrs n c).1.map (·.span)) := by
  induction n generalizing c with
  | zero => exact Nat.le_refl _
  | succ n ih =>
    have hskip := (c.reaches_skipWhile isBlank).pos_le
    unfold readAttrs
    dsimp only
    split
    · exact hskip
    · split
      · exact (ih _).since (Nat.le_trans hskip (Cursor.reaches_advance _ 1).pos_le)
      · exact ⟨hskip, (reaches_readAttr _).pos_le, ih _⟩

theorem duplicates_sublist (seen : List String) (attrs : List Attr) :
    ((duplicates seen attrs).map (·.span)).Sublist (attrs.map (·.span)) := by
  induction attrs generalizing seen with
  | nil => exact .slnil
  | cons a attrs ih =>
    unfold duplicates
    split
    · exact (ih _).cons_cons _
    · exact (ih _).cons _

theorem readTagAttrs_laid (c : Cursor) :
    Laid c.pos (readTagAttrs c).2.pos ((readTagAttrs c).1.map (·.span)) :=
  (readAttrs_laid _ _).since (c.reaches_advance _).pos_le

theorem readStartTag_declared_laid (parent : Option String) (c : Cursor) :
    Laid c.pos (readStartTag parent c).cursor.pos
      ((readStartTag parent c).value.declared.map (·.span)) :=
  (readTagAttrs_laid c).upTo (readTagAttrs_behind parent c).pos_le

theorem readStartTag_problems_laid (parent : Option String) (c : Cursor) :
    Laid c.pos (readStartTag parent c).cursor.pos (stops (readStartTag parent c).problems) := by
  have hattrs := ((readTagAttrs_laid c).sublist (duplicates_sublist [] _)).stops
  have hbehind := (readTagAttrs_behind parent c).pos_le
  have hproblems : (readStartTag parent c).problems = duplicates [] (readTagAttrs c).1 ∨
      (readStartTag parent c).problems = duplicates [] (readTagAttrs c).1 ++
        [⟨.unclosed (readStartTag parent c).value.tag,
          (readStartTag parent c).cursor.spanFrom c.pos⟩] := by
    unfold readStartTag readTagAttrs
    dsimp only
    split <;> simp
  rcases hproblems with h | h
  · rw [h]
    exact hattrs.upTo hbehind
  · rw [h, stops_append]
    exact hattrs.append ⟨hbehind, Nat.le_refl _, Nat.le_refl _⟩

theorem readEndTag_laid (tag : String) (start : Nat) (c : Cursor) :
    Laid c.pos (readEndTag tag start c).cursor.pos (stops (readEndTag tag start c).problems) := by
  unfold readEndTag
  split
  · split
    · exact (c.reaches_skipPast _).pos_le
    · exact ⟨Nat.le_refl _, Nat.le_refl _, Nat.le_refl _⟩
  · exact ⟨Nat.le_refl _, Nat.le_refl _, Nat.le_refl _⟩

/-! ## Rows -/

structure Read.IsLaid (c : Cursor) (r : Read (List Node)) : Prop where
  nodes : Laid c.pos r.cursor.pos (r.value.map (·.span))
  problems : Laid c.pos r.cursor.pos (stops r.problems)

namespace Read.IsLaid

theorem nil {c d : Cursor} (h : c.Reaches d) : IsLaid c ⟨[], [], d⟩ := ⟨h.pos_le, h.pos_le⟩

theorem append {c : Cursor} {r s : Read (List Node)} (hr : IsLaid c r) (hs : IsLaid r.cursor s) :
    IsLaid c (r.append s) where
  nodes := by
    rw [Read.append, List.map_append]
    exact hr.nodes.append hs.nodes
  problems := by
    rw [Read.append, stops_append]
    exact hr.problems.append hs.problems

end Read.IsLaid

theorem laid_spanFrom {c d : Cursor} (h : c.Reaches d) :
    Laid c.pos d.pos [d.spanFrom c.pos] ∧ Laid c.pos d.pos [.empty d.pos] :=
  ⟨⟨Nat.le_refl _, h.pos_le, Nat.le_refl _⟩, h.pos_le, Nat.le_refl _, Nat.le_refl _⟩

theorem isLaid_readStrayEnd (name : String) (c : Cursor) : (readStrayEnd name c).IsLaid c :=
  ⟨(c.reaches_skipPast ">").pos_le, (laid_spanFrom (c.reaches_skipPast ">")).2⟩

theorem isLaid_readComment (options : ReadOptions) (c : Cursor) :
    (readComment options c).IsLaid c := by
  have hstop := (c.reaches_advance 4).trans (Cursor.reaches_skipPast _ "-->")
  unfold readComment
  dsimp only
  split
  · exact ⟨(laid_spanFrom hstop).1, hstop.pos_le⟩
  · exact .nil hstop

theorem isLaid_readText (options : ReadOptions) (top : Bool) (c : Cursor) :
    (readText options top c).IsLaid c := by
  have hstop := c.reaches_advance (textRun false c.rest).length
  unfold readText
  dsimp only
  split
  · split
    · exact ⟨(laid_spanFrom hstop).1, hstop.pos_le⟩
    · exact .nil hstop
  · split
    · exact ⟨hstop.pos_le, (laid_spanFrom hstop).2⟩
    · exact ⟨(laid_spanFrom hstop).1, hstop.pos_le⟩

theorem isLaid_readLeaf (options : ReadOptions) (top : Bool) (c : Cursor) :
    (readLeaf options top c).IsLaid c := by
  unfold readLeaf
  split
  · exact isLaid_readComment options c
  · split
    · exact .nil (c.reaches_skipPast _)
    · exact isLaid_readText options top c

theorem readRawText_laid (tag : String) (c : Cursor) :
    Laid c.pos (readRawText tag c).2.pos ((readRawText tag c).1.map (·.span)) := by
  have hstop := c.reaches_skipTo ("</" ++ tag)
  unfold readRawText
  dsimp only
  split
  · exact hstop.pos_le
  · exact (laid_spanFrom hstop).1

theorem isLaid_readInside_of {options : ReadOptions} {n : Nat}
    (h : ∀ opened d, (readNodes options n opened d).IsLaid d) (opened : List String) (c : Cursor) :
    (readInside options n opened c).IsLaid (readStartTag opened.head? c).cursor := by
  unfold readInside
  dsimp only
  split
  · exact .nil (.refl _)
  · split
    · have hclose := readEndTag_laid (readStartTag opened.head? c).value.tag c.pos
        (readRawText (readStartTag opened.head? c).value.tag (readStartTag opened.head? c).cursor).2
      have hraw := readRawText_laid (readStartTag opened.head? c).value.tag
        (readStartTag opened.head? c).cursor
      constructor
      · dsimp only
        exact hraw.upTo hclose.le
      · dsimp only
        exact hclose.since hraw.le
    · have hnodes := h ((readStartTag opened.head? c).value.tag :: opened)
        (readStartTag opened.head? c).cursor
      have hclose := readEndTag_laid (readStartTag opened.head? c).value.tag c.pos
        (readNodes options n ((readStartTag opened.head? c).value.tag :: opened)
          (readStartTag opened.head? c).cursor).cursor
      constructor
      · dsimp only
        exact hnodes.nodes.upTo hclose.le
      · dsimp only
        rw [stops_append]
        exact hnodes.problems.append hclose

theorem isLaid_readNodes (options : ReadOptions) (n : Nat) (opened : List String) (c : Cursor) :
    (readNodes options n opened c).IsLaid c := by
  induction n generalizing opened c with
  | zero => exact .nil (.refl c)
  | succ n ih =>
    rw [readNodes_succ]
    split
    · exact .nil (.refl c)
    · refine .append ?_ (ih _ _)
      unfold readRound
      split
      · exact isLaid_readStrayEnd _ c
      · split
        · have htag := readStartTag_problems_laid opened.head? c
          have hinside := isLaid_readInside_of ih opened c
          refine ⟨⟨Nat.le_refl _, Nat.le_trans htag.le hinside.nodes.le, Nat.le_refl _⟩, ?_⟩
          simp only [readElement, stops_append]
          exact htag.append hinside.problems
        · exact isLaid_readLeaf _ _ c

theorem isLaid_readInside (options : ReadOptions) (n : Nat) (opened : List String) (c : Cursor) :
    (readInside options n opened c).IsLaid (readStartTag opened.head? c).cursor :=
  isLaid_readInside_of (isLaid_readNodes options n) opened c

/-! ## Nodes -/

/-- What a node has to do with the source and the element around it: a text is the part of the source
under its span, texts of blanks and comments are there only if they are asked for or in raw text,
and an element names the one around it. -/
def Node.IsFaithful (options : ReadOptions) (source : String) (around : Option Head) : Node → Prop
  | .text content span => span.slice source = content ∧ (allBlank content = true →
      options.keepBlanks = true ∨ ∃ h ∈ around, isRawText h.tag = true)
  | .comment _ _ => options.keepComments = true
  | .element e => e.head.parent = around.map (·.tag)

section Nodes

variable {options : ReadOptions} {source : String} {around : Option Head} {c : Cursor}
  (hc : (Cursor.start source).Reaches c)
include hc

theorem isFaithful_readText (top : Bool) :
    ∀ node ∈ (readText options top c).value, node.IsFaithful options source around := by
  have hslice := Cursor.slice_advance hc (textRun_begins false c.rest)
  unfold readText
  dsimp only
  intro node hnode
  split at hnode
  · split at hnode
    · rename_i hkeep
      obtain rfl := List.mem_singleton.1 hnode
      exact ⟨hslice, fun _ => .inl hkeep⟩
    · cases hnode
  · rename_i hblank
    split at hnode
    · cases hnode
    · obtain rfl := List.mem_singleton.1 hnode
      refine ⟨hslice, fun hall => absurd ?_ hblank⟩
      rwa [allBlank, String.toList_ofList] at hall

theorem isFaithful_readLeaf (top : Bool) :
    ∀ node ∈ (readLeaf options top c).value, node.IsFaithful options source around := by
  intro node hnode
  unfold readLeaf readComment at hnode
  dsimp only at hnode
  split at hnode
  · split at hnode
    · rename_i hkeep
      obtain rfl := List.mem_singleton.1 hnode
      exact hkeep
    · cases hnode
  · split at hnode
    · cases hnode
    · exact isFaithful_readText hc top node hnode

theorem isFaithful_readNodes (n : Nat) {opened : List String}
    (hopened : opened.head? = around.map (·.tag)) :
    ∀ node ∈ (readNodes options n opened c).value, node.IsFaithful options source around := by
  induction n generalizing c with
  | zero => simp [readNodes]
  | succ n ih =>
    intro node hnode
    rw [readNodes_succ] at hnode
    split at hnode
    · cases hnode
    · rcases List.mem_append.1 hnode with hnode | hnode
      · unfold readRound at hnode
        split at hnode
        · cases hnode
        · split at hnode
          · obtain rfl := List.mem_singleton.1 hnode
            exact hopened
          · exact isFaithful_readLeaf hc _ node hnode
      · exact ih (hc.trans (reaches_readRound options n opened c)) node hnode

theorem isFaithful_readRawText {head : Head} (hraw : isRawText head.tag = true) (tag : String) :
    ∀ node ∈ (readRawText tag c).1, node.IsFaithful options source (some head) := by
  intro node hnode
  unfold readRawText at hnode
  dsimp only at hnode
  split at hnode
  · cases hnode
  · obtain rfl := List.mem_singleton.1 hnode
    exact ⟨Cursor.slice_advance hc (c.textBefore_prefix _), fun _ => .inr ⟨head, rfl, hraw⟩⟩

theorem isFaithful_readInside (n : Nat) (opened : List String) {head : Head}
    (htag : (readStartTag opened.head? c).value.tag = head.tag) :
    ∀ node ∈ (readInside options n opened c).value, node.IsFaithful options source (some head) := by
  have hstart := hc.trans (reaches_readStartTag opened.head? c)
  intro node hnode
  unfold readInside at hnode
  dsimp only at hnode
  split at hnode
  · cases hnode
  · split at hnode
    · rename_i hraw
      exact isFaithful_readRawText hstart (htag ▸ hraw) _ node hnode
    · have hopened : ((readStartTag opened.head? c).value.tag :: opened).head? =
          (some head).map (·.tag) := congrArg some htag
      exact isFaithful_readNodes hstart n hopened node hnode

end Nodes

/-! ## Trees -/

/-- The nodes between the tags of an element, or those at the top: they stand between the given bounds
one after the other, and each is faithful. -/
structure IsFaithfulRow (options : ReadOptions) (source : String) (around : Option Head)
    (bounds : Span) (nodes : List Node) : Prop where
  inside : ∀ node ∈ nodes, bounds.Covers node.span
  ordered : nodes.Pairwise fun a b => a.span.stop ≤ b.span.start
  faithful : ∀ node ∈ nodes, node.IsFaithful options source around

structure Element.IsFaithful (options : ReadOptions) (source : String) (e : Element) : Prop where
  row : IsFaithfulRow options source (some e.head) e.head.span e.children
  attrs : ∀ a ∈ e.head.declared, e.head.span.Covers a.span
  childless : (e.head.selfClosing || isVoid e.head.tag) = true → e.children = []

theorem IsFaithfulRow.of_laid {options : ReadOptions} {source : String} {around : Option Head}
    {lo hi : Nat} {nodes : List Node} (hlaid : Laid lo hi (nodes.map (·.span)))
    (hnodes : ∀ node ∈ nodes, node.IsFaithful options source around) :
    IsFaithfulRow options source around ⟨lo, hi⟩ nodes :=
  ⟨fun _ hnode => hlaid.covers (List.mem_map_of_mem hnode), List.pairwise_map.1 hlaid.pairwise,
    hnodes⟩

theorem readInside_childless {options : ReadOptions} {n : Nat} {opened : List String} {c : Cursor}
    (h : ((readStartTag opened.head? c).value.selfClosing ||
      isVoid (readStartTag opened.head? c).value.tag) = true) :
    (readInside options n opened c).value = [] := by
  simp only [readInside, if_pos h]

theorem isFaithful_readElement {options : ReadOptions} {source : String} (n : Nat)
    (opened : List String) {c : Cursor} (hc : (Cursor.start source).Reaches c) :
    (readElement options n opened c).value.IsFaithful options source := by
  have hinside := isLaid_readInside options n opened c
  have hdeclared := readStartTag_declared_laid opened.head? c
  refine ⟨?_, ?_, ?_⟩
  · exact .of_laid (hinside.nodes.since hdeclared.le) (isFaithful_readInside hc n opened rfl)
  · intro a ha
    exact (hdeclared.upTo hinside.nodes.le).covers (List.mem_map_of_mem ha)
  · exact readInside_childless

theorem cursor_read (options : ReadOptions) (source : String) :
    (read options source).cursor = ⟨byteLength source.toList, []⟩ := by
  have hends : rowEnds [] (read options source).cursor = true :=
    rowEnds_readNodes (Nat.lt_succ_self _)
  have hend : (read options source).cursor.rest = [] := by
    simpa [rowEnds, Cursor.atEnd] using hends
  obtain ⟨cs, hcs, hpos⟩ := reaches_readNodes options (source.toList.length + 1) [] (.start source)
  have hcs : source.toList = cs := by
    rw [← List.append_nil cs, ← hend]
    exact hcs
  have hpos : (read options source).cursor.pos = byteLength source.toList := by
    rw [hcs, ← Nat.zero_add (byteLength cs)]
    exact hpos
  rw [← hpos, ← hend]

/-- Whatever the source is, it is read to its end, and more rounds would change nothing. What is read
is faithful to the source at every depth, and problems are reported in the order in which they
end. -/
theorem read_faithful (options : ReadOptions) (source : String) :
    (∀ n, source.toList.length < n →
      readNodes options n [] (.start source) = read options source) ∧
    (read options source).cursor = ⟨byteLength source.toList, []⟩ ∧
    IsFaithfulRow options source none ⟨0, byteLength source.toList⟩ (read options source).value ∧
    (∀ e, Occurs (read options source).value e → e.IsFaithful options source) ∧
    (read options source).problems.Pairwise fun p q => p.span.stop ≤ q.span.stop := by
  have hcursor := cursor_read options source
  have hlaid : (read options source).IsLaid (.start source) := isLaid_readNodes _ _ _ _
  refine ⟨fun n hn => readNodes_fuel hn (Nat.lt_succ_self _), hcursor, ?_, ?_, ?_⟩
  · have hrow := hlaid.nodes
    rw [hcursor] at hrow
    exact .of_laid hrow (isFaithful_readNodes (.refl _) _ rfl)
  · intro e he
    exact he.of_all fun x hx => readNodes_elements
      (fun n opened c hc _ _ => isFaithful_readElement n opened hc) _ _ _ (.refl _) x hx
  · have hstops := hlaid.problems.pairwise
    rw [stops, List.map_map, List.pairwise_map] at hstops
    exact hstops

end VueToSan.Markup
