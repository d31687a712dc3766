import VueToSan.Proofs.AdmittedTrees
import VueToSan.Proofs.JoinedTexts
import VueToSan.Proofs.Occurrence

/-!
# Markup in admitted pieces

Written markup is a row of start tags, end tags and texts. As long as each of them is read as the
piece that it is, and San finds nothing inadmissible in any of them, what is read from the row is
admitted, whether or not the tags match.
-/

namespace VueToSan.San

open VueToSan.Text VueToSan.Markup

/-! ## Trees under construction -/

theorem nodesAdmitted_foldElse {branch : Element} {done done' : List Node}
    (hbranch : branch.isAdmitted = true) (hdone : nodesAdmitted done = true)
    (h : foldElse branch done = some done') : nodesAdmitted done' = true := by
  fun_induction foldElse branch done generalizing done' with
  | case1 => cases h
  | case2 value before ih =>
    obtain ⟨before', hbefore, rfl⟩ := Option.map_eq_some_iff.1 h
    rw [nodesAdmitted, Bool.and_eq_true] at hdone ⊢
    exact ⟨hdone.1, ih hdone.2 hbefore⟩
  | case3 e before hif =>
    obtain rfl := Option.some.inj h
    obtain ⟨head, children, elses⟩ := e
    simp only [nodesAdmitted, Node.isAdmitted, Element.isAdmitted, elementsAdmitted_eq_all,
      Bool.and_eq_true, List.all_append] at hdone ⊢
    exact ⟨⟨hdone.1.1, hdone.1.2, by simpa using hbranch⟩, hdone.2⟩
  | case4 => cases h

theorem nodesAdmitted_settle {e : Element} {done done' : List Node} (he : e.isAdmitted = true)
    (hdone : nodesAdmitted done = true) (h : settle e done = some done') :
    nodesAdmitted done' = true := by
  unfold settle at h
  split at h
  · exact nodesAdmitted_foldElse he hdone h
  · obtain rfl := Option.some.inj h
    rw [nodesAdmitted, Node.isAdmitted, he, hdone]
    rfl

/-! ## Pieces -/

/-- Markup cut into start tags, end tags and texts that are read as such, with admitted attributes
and texts. -/
inductive Pieced (o : WriteOptions) : List Char → Prop
  | nil : Pieced o []
  | opening {head : Markup.Head} {rest : List Char} (hhead : head.isRegular = true)
      (hmarks : ∀ mark ∈ head.meant o, keepsAdmitted mark.1 mark.2 = true) (hrest : Pieced o rest) :
      Pieced o ((writeStartTag o head).toList ++ rest)
  | closing {tag : String} {rest : List Char} (htag : isTagName tag = true) (hrest : Pieced o rest) :
      Pieced o (("</" ++ tag ++ ">").toList ++ rest)
  | text {content : String} {rest : List Char} (hne : content.toList ≠ [])
      (hcalm : isCalm false content.toList = true) (hcontent : holdsAdmitted content = true)
      (hopens : Opens rest) (hrest : Pieced o rest) : Pieced o (content.toList ++ rest)

section Pieces

variable {o : WriteOptions} {pos : Nat} {rest : List Char}

theorem nextPiece_opening {head : Markup.Head} (hhead : head.isRegular = true) :
    nextPiece ⟨pos, (writeStartTag o head).toList ++ rest⟩ = .element := by
  obtain ⟨c, cs, hopen, hc⟩ := startTag_opens (o := o) hhead rest
  rw [hopen]
  exact nextPiece_element hc

theorem nextPiece_closing (tag : String) :
    nextPiece ⟨pos, ("</" ++ tag ++ ">").toList ++ rest⟩ = .ends := by
  rw [nextPiece_ends]
  exact .inr ⟨tag.toList ++ '>' :: rest, by simp⟩

theorem nextPiece_calm {cs : List Char} (hne : cs ≠ []) (hcalm : isCalm false cs = true)
    (hopens : Opens rest) : nextPiece ⟨pos, cs ++ rest⟩ = .text := by
  refine nextPiece_text (by simp [hne]) ?_
  obtain ⟨c, tail, rfl⟩ := List.exists_cons_of_ne_nil hne
  exact (atMarkup_append hopens).trans (atMarkup_calm hcalm)

/-- What stands at a cursor, by how it is read on from there. -/
theorem Pieced.next {cs : List Char} (h : Pieced o cs) (pos : Nat) :
    match nextPiece ⟨pos, cs⟩ with
    | .ends => cs = [] ∨ ∃ tag rest, isTagName tag = true ∧ Pieced o rest ∧
        cs = ("</" ++ tag ++ ">").toList ++ rest
    | .declaration => False
    | .element => ∃ head : Markup.Head, ∃ rest, head.isRegular = true ∧
        (∀ mark ∈ head.meant o, keepsAdmitted mark.1 mark.2 = true) ∧ Pieced o rest ∧
        cs = (writeStartTag o head).toList ++ rest
    | .text => ∃ content rest, isCalm false content.toList = true ∧ holdsAdmitted content = true ∧
        Opens rest ∧ Pieced o rest ∧ cs = content.toList ++ rest := by
  cases h with
  | nil => exact .inl rfl
  | opening hhead hmarks hrest =>
    rw [nextPiece_opening hhead]
    exact ⟨_, _, hhead, hmarks, hrest, rfl⟩
  | closing htag hrest =>
    rw [nextPiece_closing]
    exact .inr ⟨_, _, htag, hrest, rfl⟩
  | text hne hcalm hcontent hopens hrest =>
    rw [nextPiece_calm hne hcalm hopens]
    exact ⟨_, _, hcalm, hcontent, hopens, hrest, rfl⟩

namespace Pieced

variable {c : Cursor}

theorem not_declaration (h : Pieced o c.rest) : nextPiece c ≠ .declaration := by
  intro hnext
  have hc := h.next c.pos
  rw [hnext] at hc
  exact hc

theorem behind_text (h : Pieced o c.rest) (hnext : nextPiece c = .text) :
    holdsAdmitted (String.ofList (textRun false c.rest)) = true ∧
      Pieced o (c.advance (textRun false c.rest).length).rest := by
  have hc := h.next c.pos
  rw [hnext] at hc
  obtain ⟨content, rest, hcalm, hcontent, hopens, hrest, heq⟩ := hc
  obtain ⟨pos, cs⟩ := c
  obtain rfl : cs = content.toList ++ rest := heq
  rw [textRun_calm hcalm hopens, String.ofList_toList, Cursor.advance_append]
  exact ⟨hcontent, hrest⟩

theorem behind_closing {tag : String} {start : Nat} {stop : Cursor} (h : Pieced o c.rest)
    (hends : nextPiece c = .ends) (hread : readEndTag tag start c = .ok stop) :
    Pieced o stop.rest := by
  have hc := h.next c.pos
  rw [hends] at hc
  obtain ⟨pos, cs⟩ := c
  obtain rfl | ⟨closing, rest, hclosing, hrest, heq⟩ := hc
  · cases hread
  · obtain rfl : cs = ("</" ++ closing ++ ">").toList ++ rest := heq
    obtain ⟨error, hresult⟩ := readEndTag_closing hclosing tag start pos rest
    rw [hresult] at hread
    split at hread
    · obtain rfl := Except.ok.inj hread
      exact hrest
    · cases hread

theorem behind_opening (ho : o.isRegular) {head : Head} {selfClosing : Bool} {inside : Cursor}
    (h : Pieced o c.rest) (hnext : nextPiece c = .element)
    (hread : readStartTag c = .ok (head, selfClosing, inside)) :
    head.isAdmitted = true ∧ Pieced o inside.rest := by
  have hc := h.next c.pos
  rw [hnext] at hc
  obtain ⟨written, rest, hwritten, hmarks, hrest, heq⟩ := hc
  obtain ⟨pos, cs⟩ := c
  obtain rfl : cs = (writeStartTag o written).toList ++ rest := heq
  cases himage : written.image? o with
  | none =>
    -- San refuses one of the attributes, so it does not read the tag.
    obtain ⟨n, hfuel, hstart⟩ := readStartTag_marks (o := o) hwritten pos rest
    rw [Markup.Head.image?, Option.map_eq_none_iff] at himage
    have hnone := readAttrs_refused (isAttrName_kept ho hwritten) himage hfuel
      (pos + byteLength ('<' :: written.tag.toList)) rest
    rw [hstart] at hread
    obtain ⟨attrs, hattrs, -⟩ := bind_eq_ok.1 hread
    rw [hattrs] at hnone
    cases hnone
  | some image =>
    rw [readStartTag_written ho hwritten himage] at hread
    obtain ⟨rfl, hpair⟩ := Prod.mk.inj (Except.ok.inj hread)
    obtain ⟨-, rfl⟩ := Prod.mk.inj hpair
    obtain ⟨applied, happlied, rfl⟩ := Option.map_eq_some_iff.1 himage
    have hadmitted : applied.isAdmitted = true :=
      isAdmitted_applyAll hmarks (t := { tag := written.tag }) rfl happlied
    exact ⟨hadmitted, hrest⟩

end Pieced

theorem Reads.admitted (ho : o.isRegular) {done nodes : List Node} {c stop : Cursor}
    (h : Reads done c nodes stop) (hc : Pieced o c.rest) (hdone : nodesAdmitted done = true) :
    nodesAdmitted nodes = true ∧ Pieced o stop.rest := by
  induction h with
  | ends _ =>
    rw [nodesAdmitted_eq_all, List.all_reverse, ← nodesAdmitted_eq_all]
    exact ⟨hdone, hc⟩
  | declaration hnext _ _ => exact absurd hnext hc.not_declaration
  | blank hnext _ _ ih => exact ih (hc.behind_text hnext).2 hdone
  | @text done nodes c stop value hnext _ hvalue _ ih =>
    obtain ⟨hcontent, hrest⟩ := hc.behind_text hnext
    have hread : (readText (textRun false c.rest) ⟨0, 0⟩).toOption = some value :=
      (readText_span _ _ _).trans (toOption_eq_some.2 hvalue)
    rw [holdsAdmitted, String.toList_ofList, hread, Option.all_some] at hcontent
    refine ih hrest ?_
    rw [nodesAdmitted, Node.isAdmitted, hcontent, hdone]
    rfl
  | single hnext hstart _ hsettle _ ih =>
    obtain ⟨hhead, hrest⟩ := hc.behind_opening ho hnext hstart
    refine ih hrest (nodesAdmitted_settle ?_ hdone hsettle)
    rw [Element.isAdmitted, hhead]
    rfl
  | element hnext hstart _ hinside hend hsettle _ ihinside ih =>
    obtain ⟨hhead, hrest⟩ := hc.behind_opening ho hnext hstart
    obtain ⟨hchildren, hlast⟩ := ihinside hrest rfl
    refine ih (hlast.behind_closing hinside.stops hend) (nodesAdmitted_settle ?_ hdone hsettle)
    rw [Element.isAdmitted, hhead, hchildren]
    rfl

end Pieces

end VueToSan.San

namespace VueToSan.Markup

open VueToSan.Text VueToSan.San

/-! ## Written trees -/

def Node.IsAdmittedPiece : Node → Prop
  | .element _ => True
  | .text content _ => isCalm false content.toList = true ∧ holdsAdmitted content = true
  | .comment _ _ => False

/-- An element with a regular start tag and admitted attributes, between whose child elements there
is nothing but calm, admitted texts. -/
structure Element.IsPieced (o : WriteOptions) (e : Element) : Prop where
  head : e.head.isRegular = true
  marks : ∀ mark ∈ e.head.meant o, keepsAdmitted mark.1 mark.2 = true
  nodes : ∀ node ∈ joinNodes o e.children, node.IsAdmittedPiece

theorem isAdmittedPiece_empty : (Node.ofText "").IsAdmittedPiece := ⟨rfl, by decide⟩

theorem joinText_joinText (content next : String) (nodes : List Node) :
    joinText content (joinText next nodes) = joinText (content ++ next) nodes := by
  cases nodes with
  | nil => rfl
  | cons node nodes =>
    cases node with
    | element e => rfl
    | text other span => simp [joinText, String.append_assoc]
    | comment other span => rfl

theorem isAdmittedPiece_joinText_empty {nodes : List Node} (h : ∀ node ∈ nodes, node.IsAdmittedPiece) :
    ∀ node ∈ joinText "" nodes, node.IsAdmittedPiece := by
  unfold joinText
  split
  · rw [List.forall_mem_cons] at h ⊢
    rw [String.empty_append]
    exact h
  · exact List.forall_mem_cons.2 ⟨isAdmittedPiece_empty, h⟩

variable {o : WriteOptions}

theorem pieced_text {content : String} {span : Span} {rest : List Char}
    (h : (Node.text content span).IsAdmittedPiece) (hopens : Opens rest) (hrest : Pieced o rest) :
    Pieced o (content.toList ++ rest) := by
  by_cases hne : content.toList = []
  · rw [hne]
    exact hrest
  · exact .text hne h.1 h.2 hopens hrest

mutual

theorem pieced_element : (e : Element) → (h : e.All (·.IsPieced o)) → {rest : List Char} →
    (hrest : Pieced o rest) → Pieced o ((writeElement o e).toList ++ rest)
  | ⟨head, children, branches⟩, h, rest, hrest => by
    obtain ⟨hhead, hmarks, hnodes⟩ := h.self
    have hbehind := pieced_branches branches (fun test x hx => h.part (.block hx)) hrest
    rw [writeElement, String.toList_append, String.toList_append, String.toList_append,
      List.append_assoc, List.append_assoc, List.append_assoc]
    refine .opening hhead hmarks ?_
    have htag : isTagName head.tag = true := by
      rw [Head.isRegular, Bool.and_eq_true] at hhead
      exact hhead.1
    -- Only a void element without children has no end tag.
    cases children with
    | nil =>
      rw [writeNodes, String.toList_empty, List.nil_append, writeEndTag]
      split
      · exact .closing htag hbehind
      · exact hbehind
    | cons node nodes =>
      rw [writeEndTag, if_pos (by simp)]
      exact pieced_nodes (node :: nodes) (fun x hx => h.child hx) (isAdmittedPiece_joinText_empty hnodes)
        (.inr (by simp [atMarkup])) (.closing htag hbehind)

theorem pieced_nodes : (nodes : List Node) → (h : ∀ x, .element x ∈ nodes → x.All (·.IsPieced o)) →
    {run : String} → (hnodes : ∀ node ∈ joinText run (joinNodes o nodes), node.IsAdmittedPiece) →
    {rest : List Char} → (hopens : Opens rest) → (hrest : Pieced o rest) →
    Pieced o (run.toList ++ ((writeNodes o nodes).toList ++ rest))
  | [], _, run, hnodes, rest, hopens, hrest => pieced_text (hnodes _ List.mem_cons_self) hopens hrest
  | .element e :: nodes, h, run, hnodes, rest, hopens, hrest => by
    obtain ⟨hrun, hnodes⟩ := List.forall_mem_cons.1 hnodes
    have hbehind := pieced_nodes nodes (fun x hx => h x (List.mem_cons_of_mem _ hx))
      (isAdmittedPiece_joinText_empty (List.forall_mem_cons.1 hnodes).2) hopens hrest
    have he := pieced_element e (h e List.mem_cons_self) hbehind
    rw [writeNodes, String.toList_append, List.append_assoc]
    exact pieced_text hrun (opens_writeElement (h e List.mem_cons_self).self.head _) he
  | .text content span :: nodes, h, run, hnodes, rest, hopens, hrest => by
    rw [joinNodes, joinText_joinText] at hnodes
    have hbehind := pieced_nodes nodes (fun x hx => h x (List.mem_cons_of_mem _ hx)) hnodes hopens hrest
    rwa [String.toList_append, List.append_assoc, ← List.append_assoc (writeText o content).toList,
      ← String.toList_append] at hbehind
  | .comment content span :: nodes, _, run, hnodes, _, _, _ =>
    (hnodes (.comment content span) (List.mem_cons_of_mem _ List.mem_cons_self)).elim

theorem pieced_branches : (branches : List Branch) →
    (h : ∀ test x, ⟨test, .element x⟩ ∈ branches → x.All (·.IsPieced o)) → {rest : List Char} →
    (hrest : Pieced o rest) → Pieced o ((writeBranches o branches).toList ++ rest)
  | [], _, rest, hrest => hrest
  | ⟨test, .owner⟩ :: branches, h, rest, hrest =>
    pieced_branches branches (fun test x hx => h test x (List.mem_cons_of_mem _ hx)) hrest
  | ⟨test, .element e⟩ :: branches, h, rest, hrest => by
    rw [writeBranches, String.toList_append, List.append_assoc]
    exact pieced_element e (h test e List.mem_cons_self)
      (pieced_branches branches (fun test x hx => h test x (List.mem_cons_of_mem _ hx)) hrest)

end

/-- Whatever San reads from an element in admitted pieces is admitted. -/
theorem read_pieced {e : Element} (ho : o.isRegular) (h : e.All (·.IsPieced o)) {nodes : List San.Node}
    (hread : San.read (writeElement o e) = .ok nodes) : nodesAdmitted nodes = true := by
  obtain ⟨stop, hreads⟩ := read_eq_ok.1 hread
  have hpieced : Pieced o ((writeElement o e).toList ++ []) := pieced_element e h .nil
  rw [List.append_nil] at hpieced
  exact (hreads.admitted ho hpieced rfl).1

end VueToSan.Markup
