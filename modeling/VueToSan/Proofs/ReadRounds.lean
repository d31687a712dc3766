import VueToSan.Markup.Reader
import VueToSan.Proofs.Cursors

/-!
# Reading in rounds

Markup is read in rounds: a stray end tag, an element with its content, or anything else. What is
read in one round stands in front of what is read behind it.
-/

namespace VueToSan.Markup

open VueToSan.Text

/-! ## Tags and leaves -/

theorem reaches_readValue (c : Cursor) : c.Reaches (readValue c).2 := by
  unfold readValue
  split
  · split <;> exact c.reaches_advance _
  · exact .refl c

theorem reaches_readAttr (c : Cursor) : c.Reaches (readAttr c).2 := by
  have hbehind := (c.reaches_advance (c.rest.takeWhile isAttrNameChar).length).trans
    (Cursor.reaches_skipWhile _ isBlank)
  unfold readAttr
  dsimp only
  split
  · exact hbehind.trans (((Cursor.reaches_advance _ 1).trans
      (Cursor.reaches_skipWhile _ isBlank)).trans (reaches_readValue _))
  · exact hbehind

theorem reaches_readAttrs (n : Nat) (c : Cursor) : c.Reaches (readAttrs n c).2 := by
  induction n generalizing c with
  | zero => exact .refl c
  | succ n ih =>
    have hskip := c.reaches_skipWhile isBlank
    unfold readAttrs
    dsimp only
    split
    · exact hskip
    · split
      · exact hskip.trans ((Cursor.reaches_advance _ 1).trans (ih _))
      · exact hskip.trans ((reaches_readAttr _).trans (ih _))

def readTagAttrs (c : Cursor) : List Attr × Cursor :=
  let inside := c.advance (((c.rest.drop 1).takeWhile isTagChar).length + 1)
  readAttrs (inside.rest.length + 1) inside

theorem readTagAttrs_behind (parent : Option String) (c : Cursor) :
    (readTagAttrs c).2.Reaches (readStartTag parent c).cursor := by
  unfold readStartTag readTagAttrs
  dsimp only
  split
  · exact Cursor.reaches_skipWord _ _
  · exact (Cursor.reaches_skipWord _ _).trans (Cursor.reaches_skipWord _ _)

theorem readStartTag_behind (parent : Option String) (c : Cursor) :
    (c.advance (((c.rest.drop 1).takeWhile isTagChar).length + 1)).Reaches
      (readStartTag parent c).cursor :=
  (reaches_readAttrs _ _).trans (readTagAttrs_behind parent c)

theorem reaches_readStartTag (parent : Option String) (c : Cursor) :
    c.Reaches (readStartTag parent c).cursor :=
  (c.reaches_advance _).trans (readStartTag_behind parent c)

theorem reaches_readEndTag (tag : String) (start : Nat) (c : Cursor) :
    c.Reaches (readEndTag tag start c).cursor := by
  unfold readEndTag
  split
  · split
    · exact c.reaches_skipPast _
    · exact .refl c
  · exact .refl c

theorem reaches_readLeaf (options : ReadOptions) (top : Bool) (c : Cursor) :
    c.Reaches (readLeaf options top c).cursor := by
  unfold readLeaf
  split
  · exact (c.reaches_advance 4).trans (Cursor.reaches_skipPast _ _)
  · split
    · exact c.reaches_skipPast _
    · unfold readText
      dsimp only
      split
      · exact c.reaches_advance _
      · split <;> exact c.reaches_advance _

/-! ## Rounds -/

def readInside (options : ReadOptions) (n : Nat) (opened : List String) (c : Cursor) :
    Read (List Node) :=
  let start := readStartTag opened.head? c
  let tag := start.value.tag
  if start.value.selfClosing || isVoid tag then ⟨[], [], start.cursor⟩
  else
    let content : Read (List Node) :=
      if isRawText tag then
        let (nodes, stop) := readRawText tag start.cursor
        ⟨nodes, [], stop⟩
      else readNodes options n (tag :: opened) start.cursor
    let close := readEndTag tag c.pos content.cursor
    ⟨content.value, content.problems ++ close.problems, close.cursor⟩

def readElement (options : ReadOptions) (n : Nat) (opened : List String) (c : Cursor) :
    Read Element :=
  let start := readStartTag opened.head? c
  let inside := readInside options n opened c
  ⟨⟨{ start.value with span := inside.cursor.spanFrom c.pos }, inside.value, []⟩,
    start.problems ++ inside.problems, inside.cursor⟩

def rowEnds (opened : List String) (c : Cursor) : Bool :=
  c.atEnd || (endTag? c.rest).any fun name => opened.any (sameLetters name)

def opensElement (c : Cursor) : Bool := atMarkup c.rest && !c.startsWith "<!"

def readRound (options : ReadOptions) (n : Nat) (opened : List String) (c : Cursor) :
    Read (List Node) :=
  match endTag? c.rest with
  | some name => readStrayEnd name c
  | none =>
    if opensElement c then
      let e := readElement options n opened c
      ⟨[.element e.value], e.problems, e.cursor⟩
    else readLeaf options opened.isEmpty c

def Read.append (r s : Read (List Node)) : Read (List Node) :=
  ⟨r.value ++ s.value, r.problems ++ s.problems, s.cursor⟩

theorem readNodes_succ (options : ReadOptions) (n : Nat) (opened : List String) (c : Cursor) :
    readNodes options (n + 1) opened c =
      if rowEnds opened c then ⟨[], [], c⟩
      else
        (readRound options n opened c).append
          (readNodes options n opened (readRound options n opened c).cursor) := by
  rw [readNodes, rowEnds, readRound]
  by_cases hend : c.atEnd = true
  · simp [hend]
  · cases htag : endTag? c.rest with
    | some name => by_cases hopen : opened.any (sameLetters name) = true <;>
        simp [hend, hopen, Read.append, readStrayEnd]
    | none =>
      by_cases hopen : opensElement c = true
      · have hstart : (atMarkup c.rest && !c.startsWith "<!") = true := hopen
        simp only [hend, hstart, hopen, Option.any_none, Bool.or_false, Bool.false_eq_true, if_false,
          if_true]
        rfl
      · have hstart : ¬(atMarkup c.rest && !c.startsWith "<!") = true := hopen
        simp only [hend, hstart, hopen, Option.any_none, Bool.or_false, Bool.false_eq_true, if_false]
        rfl

theorem readInside_behind_of {options : ReadOptions} {n : Nat}
    (h : ∀ opened (d : Cursor), d.Reaches (readNodes options n opened d).cursor)
    (opened : List String) (c : Cursor) :
    (readStartTag opened.head? c).cursor.Reaches (readInside options n opened c).cursor := by
  unfold readInside
  dsimp only
  split
  · exact .refl _
  · refine .trans ?_ (reaches_readEndTag _ _ _)
    split
    · exact Cursor.reaches_skipTo _ _
    · exact h _ _

theorem reaches_readNodes (options : ReadOptions) (n : Nat) (opened : List String) (c : Cursor) :
    c.Reaches (readNodes options n opened c).cursor := by
  induction n generalizing opened c with
  | zero => exact .refl c
  | succ n ih =>
    rw [readNodes_succ]
    split
    · exact .refl c
    · refine .trans ?_ (ih _ _)
      unfold readRound
      split
      · exact c.reaches_skipPast _
      · split
        · exact (reaches_readStartTag opened.head? c).trans (readInside_behind_of ih opened c)
        · exact reaches_readLeaf _ _ c

theorem readInside_behind (options : ReadOptions) (n : Nat) (opened : List String) (c : Cursor) :
    (readStartTag opened.head? c).cursor.Reaches (readInside options n opened c).cursor :=
  readInside_behind_of (reaches_readNodes options n) opened c

theorem reaches_readRound (options : ReadOptions) (n : Nat) (opened : List String) (c : Cursor) :
    c.Reaches (readRound options n opened c).cursor := by
  unfold readRound
  split
  · exact c.reaches_skipPast _
  · split
    · exact (reaches_readStartTag opened.head? c).trans (readInside_behind options n opened c)
    · exact reaches_readLeaf _ _ c

end VueToSan.Markup
