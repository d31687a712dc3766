import VueToSan.Proofs.MarkupImage
import VueToSan.Proofs.Occurrence

/-!
# Trees that were read

What is known of every element of a tree that was just read: its names can be written again, the
values of its attributes stand in the source, and so do its texts.
-/

namespace VueToSan.Markup

open VueToSan.Text

/-! ## Start tags -/

theorem readValue_part (c : Cursor) : (readValue c).1 <:+: c.rest := by
  obtain ⟨pos, rest⟩ := c
  unfold readValue
  dsimp only
  split
  · rename_i quote cs
    split
    · exact ( List.takeWhile_prefix _).isInfix.trans (List.suffix_cons quote cs).isInfix
    · exact ( List.takeWhile_prefix _).isInfix
  · exact List.infix_rfl

theorem readAttr_value_part (c : Cursor) : (readAttr c).1.value.toList <:+: c.rest := by
  have hbehind := (c.reaches_advance (c.rest.takeWhile isAttrNameChar).length).trans
    (Cursor.reaches_skipWhile _ isBlank)
  unfold readAttr
  dsimp only
  split
  · rw [String.toList_ofList]
    exact (readValue_part _).trans (hbehind.trans ((Cursor.reaches_advance _ 1).trans
      (Cursor.reaches_skipWhile _ isBlank))).suffix.isInfix
  · exact List.nil_infix

theorem isAttrName_readAttr {c : Cursor} (h : (c.rest.takeWhile isAttrNameChar).isEmpty = false) :
    isAttrName (readAttr c).1.name := by
  have hname : (readAttr c).1.name = String.ofList (c.rest.takeWhile isAttrNameChar) := rfl
  have hall : ∀ d ∈ c.rest.takeWhile isAttrNameChar, San.isAttrNameChar d = true := by
    intro d hd
    have hd := List.all_eq_true.1 List.all_takeWhile d hd
    simp only [isAttrNameChar, San.isAttrNameChar, Bool.and_eq_true] at hd ⊢
    obtain ⟨⟨⟨⟨hquotes, -⟩, hclose⟩, hslash⟩, hequals⟩ := hd
    exact ⟨⟨⟨hquotes, hclose⟩, hslash⟩, hequals⟩
  simp only [isAttrName, hname, String.toList_ofList, Bool.and_eq_true, List.all_eq_true]
  refine ⟨?_, hall⟩
  simpa [String.isEmpty_iff, ← String.toList_eq_nil_iff] using h

theorem readAttrs_declared (n : Nat) (c : Cursor) :
    ∀ a ∈ (readAttrs n c).1, isAttrName a.name ∧ a.value.toList <:+: c.rest := by
  induction n generalizing c with
  | zero => simp [readAttrs]
  | succ n ih =>
    have hskip := (c.reaches_skipWhile isBlank).suffix.isInfix
    unfold readAttrs
    dsimp only
    intro a ha
    split at ha
    · cases ha
    · split at ha
      · obtain ⟨hname, hvalue⟩ := ih _ a ha
        exact ⟨hname, (hvalue.trans (Cursor.reaches_advance _ 1).suffix.isInfix).trans hskip⟩
      · rename_i hname
        rcases List.mem_cons.1 ha with rfl | ha
        · exact ⟨isAttrName_readAttr (by simpa using hname), (readAttr_value_part _).trans hskip⟩
        · obtain ⟨hname, hvalue⟩ := ih _ a ha
          exact ⟨hname, (hvalue.trans (reaches_readAttr _).suffix.isInfix).trans hskip⟩

theorem readStartTag_declared (parent : Option String) (c : Cursor) :
    ∀ a ∈ (readStartTag parent c).value.declared,
      isAttrName a.name ∧ a.value.toList <:+: c.rest := by
  intro a ha
  let inside := c.advance (((c.rest.drop 1).takeWhile isTagChar).length + 1)
  have hdeclared : (readStartTag parent c).value.declared =
      (readAttrs (inside.rest.length + 1) inside).1 := rfl
  obtain ⟨hname, hvalue⟩ := readAttrs_declared _ _ a (hdeclared ▸ ha)
  exact ⟨hname, hvalue.trans (c.reaches_advance _).suffix.isInfix⟩

theorem isTagName_readStartTag (parent : Option String) {c : Cursor} {letter : Char}
    {cs : List Char} (hc : c.rest = '<' :: letter :: cs) (hletter : isLetter letter = true) :
    isTagName (readStartTag parent c).value.tag := by
  have htag : (readStartTag parent c).value.tag =
      String.ofList ((letter :: cs).takeWhile isTagChar) := by
    unfold readStartTag
    dsimp only
    rw [hc]
    rfl
  have hfirst : isTagChar letter = true := by simp [isTagChar, isLetterOrDigit, hletter]
  rw [htag, isTagName, String.toList_ofList, List.all_takeWhile, List.takeWhile_cons_of_pos hfirst]
  simp [hletter]

/-! ## Elements -/

structure Element.IsRead (options : ReadOptions) (source : List Char) (e : Element) : Prop where
  tag : isTagName e.head.tag
  attrs : e.head.attrs = entriesOf e.head.declared
  declared : ∀ a ∈ e.head.declared, isAttrName a.name ∧ a.value.toList <:+: source
  loop : e.head.loop = none
  content : Content options source e.head e.children
  branches : e.branches = []

theorem Content.withSpan {options : ReadOptions} {source : List Char} {head : Head}
    {nodes : List Node} (h : Content options source head nodes) (span : Span) :
    Content options source { head with span := span } nodes := by
  cases h with
  | none h => exact .none h
  | raw c hvoid hraw => exact .raw c hvoid hraw
  | nodes n opened c hc hvoid hraw => exact .nodes n opened c hc hvoid hraw

theorem Occurs.isRead {options : ReadOptions} {source : String} {e : Element}
    (he : Occurs (read options source).value e) : e.IsRead options source.toList := by
  apply he.of_all
  intro x hx
  refine readNodes_all ?_ _ _ _ List.suffix_rfl x hx
  rintro parent c span children hc ⟨letter, cs, hopen, hletter⟩ hcontent -
  refine ⟨isTagName_readStartTag parent hopen hletter, rfl, fun a ha => ?_, rfl,
    hcontent.withSpan span, rfl⟩
  obtain ⟨hname, hvalue⟩ := readStartTag_declared parent c a ha
  exact ⟨hname, hvalue.trans hc.isInfix⟩

/-! ## Texts -/

/-- A node is an element, or a text that goes up to the next markup and is not blank. -/
def Node.IsPiece (source : List Char) : Node → Prop
  | .element _ => True
  | .text content _ => ∃ rest, rest <:+ source ∧ content.toList = textRun false rest ∧
      content.toList.all isBlank = false
  | .comment _ _ => False

theorem isPiece_readLeaf {source : List Char} {top : Bool} {c : Cursor} (hc : c.rest <:+ source) :
    ∀ node ∈ (readLeaf {} top c).value, node.IsPiece source := by
  unfold readLeaf readComment readText
  dsimp only
  intro node hnode
  split at hnode
  · cases hnode
  · split at hnode
    · cases hnode
    · split at hnode
      · cases hnode
      · rename_i hblank
        split at hnode
        · cases hnode
        · obtain rfl := List.mem_singleton.1 hnode
          exact ⟨c.rest, hc, String.toList_ofList, by simpa using hblank⟩

theorem isPiece_readNodes {source : List Char} (n : Nat) (opened : List String) {c : Cursor}
    (hc : c.rest <:+ source) : ∀ node ∈ (readNodes {} n opened c).value, node.IsPiece source := by
  induction n generalizing opened c with
  | zero => simp [readNodes]
  | succ n ih =>
    intro node hnode
    rw [readNodes_succ] at hnode
    split at hnode
    · cases hnode
    · rcases List.mem_append.1 hnode with hnode | hnode
      · unfold readRound at hnode
        split at hnode
        · cases hnode
        · split at hnode
          · obtain rfl := List.mem_singleton.1 hnode
            trivial
          · exact isPiece_readLeaf hc node hnode
      · exact ih _ ((reaches_readRound {} n opened c).suffix.trans hc) node hnode

end VueToSan.Markup
