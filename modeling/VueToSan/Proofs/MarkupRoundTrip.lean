import VueToSan.Proofs.MarkupPieces
import VueToSan.Proofs.SanReading

/-!
# Markup round trips

Markup written from a regular element tree that San accepts is read as the image of the tree, up to
the last character.
-/

namespace VueToSan.San

open VueToSan.Text VueToSan.Markup

/-- Reading the characters `cs` in front of `rest` turns the nodes `done` into `done'`. Fuel stays
above the number of characters left. -/
def Leads (cs : List Char) (done done' : List Node) (rest : List Char) : Prop :=
  ∀ n pos, (cs ++ rest).length < n → ∃ m, rest.length < m ∧
    readNodes n done ⟨pos, cs ++ rest⟩ = readNodes m done' ⟨pos + byteLength cs, rest⟩

theorem Leads.refl (done : List Node) (rest : List Char) : Leads [] done done rest :=
  fun n _ hn => ⟨n, hn, rfl⟩

theorem Leads.trans {cs ds rest : List Char} {done done' done'' : List Node}
    (hcs : Leads cs done done' (ds ++ rest)) (hds : Leads ds done' done'' rest) :
    Leads (cs ++ ds) done done'' rest := by
  intro n pos hn
  rw [List.append_assoc] at hn ⊢
  obtain ⟨m, hm, hfirst⟩ := hcs n pos hn
  obtain ⟨k, hk, hsecond⟩ := hds m (pos + byteLength cs) hm
  refine ⟨k, hk, ?_⟩
  rw [hfirst, hsecond, byteLength_append, Nat.add_assoc]

theorem readNodes_text {n pos : Nat} {done : List Node} {cs : List Char}
    (hne : cs ≠ []) (hcs : atMarkup cs = false) :
    readNodes (n + 1) done ⟨pos, cs⟩ =
      (let stop := (Cursor.mk pos cs).advance (textRun false cs).length
       if (textRun false cs).all isBlank then readNodes n done stop
       else do
         let value ← readText (textRun false cs) (stop.spanFrom pos)
         readNodes n (.text value :: done) stop) := by
  rw [readNodes_next (by omega), nextPiece_text hne hcs]
  rfl

theorem atMarkup_calm {cs : List Char} (hcs : isCalm false cs = true) : atMarkup cs = false := by
  unfold isCalm at hcs
  split at hcs
  · rfl
  · rfl
  · simp only [Bool.false_or, Bool.and_eq_true, Bool.not_eq_true'] at hcs
    exact hcs.1
  · rfl

theorem leads_text {cs rest : List Char} {nodes : List Node} (hcalm : isCalm false cs = true)
    (himage : textImage? cs = some nodes) (hrest : Opens rest) (done : List Node) :
    Leads cs done (nodes.reverse ++ done) rest := by
  by_cases hne : cs = []
  · subst hne
    obtain rfl : [] = nodes := by simpa [textImage?] using himage
    exact .refl done rest
  intro n pos hn
  obtain ⟨n, rfl⟩ : ∃ k, n = k + 1 := ⟨n - 1, by omega⟩
  obtain ⟨c, tail, hcons⟩ := List.exists_cons_of_ne_nil hne
  have hmarkup : atMarkup (cs ++ rest) = false := by
    rw [hcons, atMarkup_append hrest, ← hcons]
    exact atMarkup_calm hcalm
  have hlen : rest.length < n := by
    rw [hcons] at hn
    simp at hn
    omega
  refine ⟨n, hlen, ?_⟩
  rw [readNodes_text (by simp [hne]) hmarkup, textRun_calm hcalm hrest, Cursor.advance_append]
  unfold textImage? at himage
  split at himage
  · rename_i hblank
    obtain rfl := Option.some.inj himage
    simp [hblank]
  · rename_i hblank
    obtain ⟨value, hvalue, rfl⟩ := Option.map_eq_some_iff.1 himage
    have hread := fun span => toOption_eq_some.1 ((readText_span cs span ⟨0, 0⟩).trans hvalue)
    simp [hblank, hread]

/-! ## Elements -/

theorem tag_apply {h h' : Head} {name : String} {value : Option String} {s : Span}
    (hok : h.apply name value s = .ok h') : h'.tag = h.tag := by
  unfold Head.apply at hok
  split at hok
  all_goals
    obtain ⟨_, -, hh⟩ := bind_eq_ok.1 hok
    obtain rfl := Except.ok.inj hh
    rfl

theorem tag_applyAll {attrs : List (String × Option String)} {h h' : Head}
    (hok : applyAll h attrs = some h') : h'.tag = h.tag := by
  induction attrs generalizing h with
  | nil =>
    obtain rfl : h = h' := by simpa [applyAll] using hok
    rfl
  | cons a attrs ih =>
    obtain ⟨h1, hfirst, hrest⟩ := Option.bind_eq_some_iff.1 hok
    rw [ih hrest, tag_apply (toOption_eq_some.1 hfirst)]

theorem tag_image {o : WriteOptions} {head : Markup.Head} {h : Head}
    (himage : head.image? o = some h) : h.tag = head.tag := by
  obtain ⟨h1, happly, rfl⟩ := Option.map_eq_some_iff.1 himage
  exact tag_applyAll happly

def ownText (o : WriteOptions) (head : Markup.Head) (children : List Markup.Node) : List Char :=
  (writeStartTag o head).toList ++ ((writeNodes o children).toList ++
    (writeEndTag head (!children.isEmpty)).toList)

theorem isVoid_of_isSingle {tag : String} (h : isSingle tag = true) : isVoid tag = true := by
  have hall : ∀ t ∈ voidTags, isVoid t = true := by decide +kernel
  exact hall tag (List.contains_iff_mem.1 h)

theorem readNodes_close {n pos : Nat} (hn : 0 < n) (done : List Node) (tag : String)
    (rest : List Char) :
    readNodes n done ⟨pos, ("</" ++ tag ++ ">").toList ++ rest⟩ =
      .ok (done.reverse, ⟨pos, ("</" ++ tag ++ ">").toList ++ rest⟩) := by
  obtain ⟨n, rfl⟩ : ∃ k, n = k + 1 := ⟨n - 1, by omega⟩
  simp [readNodes, Cursor.startsWith]

theorem startTag_opens {o : WriteOptions} {head : Markup.Head} (hr : head.isRegular)
    (rest : List Char) :
    ∃ c cs, (writeStartTag o head).toList ++ rest = '<' :: c :: cs ∧ isLetter c = true := by
  simp only [Markup.Head.isRegular, Bool.and_eq_true] at hr
  obtain ⟨c, cs, htag, hc⟩ := isTagName_head hr.1
  exact ⟨c, cs ++ (marksText (head.kept o) ++ ['>']) ++ rest, by simp [writeStartTag_toList, htag],
    hc⟩

theorem readNodes_opening {pos : Nat} {c : Char} {cs : List Char} (hc : isLetter c = true) (n : Nat)
    (done : List Node) :
    readNodes (n + 1) done ⟨pos, '<' :: c :: cs⟩ = (do
      let (e, stop) ← readElement n ⟨pos, '<' :: c :: cs⟩
      match settle e done with
      | some done' => readNodes n done' stop
      | none => .error ⟨.elseWithoutIf, stop.spanFrom pos⟩) := by
  rw [readNodes_next (by omega), nextPiece_element hc]
  rfl

theorem readNodes_element {n pos : Nat} {done done' : List Node} {c : Char} {cs : List Char}
    (hc : isLetter c = true) {e : Element} {stop : Cursor}
    (he : readElement n ⟨pos, '<' :: c :: cs⟩ = .ok (e, stop))
    (hsettle : settle e done = some done') :
    readNodes (n + 1) done ⟨pos, '<' :: c :: cs⟩ = readNodes n done' stop := by
  rw [readNodes_opening hc, he, ok_bind]
  simp only [hsettle]

theorem leads_own {o : WriteOptions} {head : Markup.Head} {children : List Markup.Node}
    {h : Head} {nodes : List Node} (ho : o.isRegular) (hr : head.isRegular)
    (hvoid : isVoid head.tag = true → lower head.tag = head.tag ∧ children = [] ∧ nodes = [])
    (himage : head.image? o = some h)
    (hchildren : ∀ rest, Opens rest →
      Leads (writeNodes o children).toList [] nodes.reverse rest)
    {done done' : List Node} (hsettle : settle ⟨h, nodes, []⟩ done = some done')
    (rest : List Char) : Leads (ownText o head children) done done' rest := by
  intro n pos hn
  obtain ⟨n, rfl⟩ : ∃ k, n = k + 1 := ⟨n - 1, by omega⟩
  obtain ⟨c, cs, hopen, hc⟩ := startTag_opens (o := o) hr ((writeNodes o children).toList ++
    (writeEndTag head (!children.isEmpty)).toList ++ rest)
  have htext : ownText o head children ++ rest = '<' :: c :: cs := by
    rw [← hopen]
    simp [ownText]
  have hlen : rest.length < n := by
    have := congrArg List.length htext
    simp only [ownText, writeStartTag_toList, List.length_append, List.length_cons] at this hn
    omega
  refine ⟨n, hlen, ?_⟩
  rw [htext]
  refine readNodes_element hc ?_ hsettle
  have htag := tag_image himage
  rw [← hopen, readElement, readStartTag_written ho hr himage, ok_bind]
  simp only [Bool.false_or, htag]
  -- A void element has no end tag; any other one is read up to its own.
  by_cases hv : isVoid head.tag = true
  · obtain ⟨hlower, rfl, rfl⟩ := hvoid hv
    have hsingle : isSingle head.tag = true := by
      rw [isSingle, ← hlower]
      exact hv
    simp [hv, hsingle, writeNodes, writeEndTag, ownText]
  · have hend : writeEndTag head (!children.isEmpty) = "</" ++ head.tag ++ ">" := by
      have hsingle : isSingle head.tag = false := by
        rw [Bool.eq_false_iff]
        exact fun h => hv (isVoid_of_isSingle h)
      simp [writeEndTag, hsingle]
    have hfollow : Opens (("</" ++ head.tag ++ ">").toList ++ rest) := .inr (by simp [atMarkup])
    have hfuel : ((writeNodes o children).toList ++
        (("</" ++ head.tag ++ ">").toList ++ rest)).length < n := by
      simp only [ownText, writeStartTag_toList, hend, List.length_append, List.length_cons] at hn ⊢
      omega
    have htagName : isTagName head.tag := by
      simp only [Markup.Head.isRegular, Bool.and_eq_true] at hr
      exact hr.1
    obtain ⟨m, hm, hread⟩ := hchildren _ hfollow n
      (pos + byteLength (writeStartTag o head).toList) hfuel
    rw [readNodes_close (by omega), List.reverse_reverse] at hread
    simp only [hv, hend, List.append_assoc, hread, ok_bind, readEndTag_written htagName, ownText,
      byteLength_append, Nat.add_assoc, pure_eq_ok]
    rfl

theorem setsDirective_scope {o : WriteOptions} {name : String} (h : o.scopeName? = some name)
    (key : String) : setsDirective key name = false := by
  apply setsDirective_of_none
  unfold WriteOptions.scopeName? at h
  split at h
  · cases h
  · rename_i id _
    by_cases hid : id.isEmpty = true
    · simp [hid] at h
    · cases hd : o.dialect <;> simp only [hid, hd] at h <;> obtain rfl := Option.some.inj h <;>
        simp [stripStart?, List.isPrefixOf]

theorem has_image {o : WriteOptions} {head : Markup.Head} {h : Head}
    (himage : head.image? o = some h) {key : String} (hkey : key ≠ "else-if") :
    h.directives.has key = head.attrs.any (setsDirective key ·.1) := by
  obtain ⟨h1, happly, rfl⟩ := Option.map_eq_some_iff.1 himage
  have hscope : (o.scopeName?.toList.any fun name => setsDirective key name) = false := by
    cases hname : o.scopeName? with
    | none => rfl
    | some name => simp [setsDirective_scope hname]
  have hhas := has_applyAll happly hkey
  simpa [Markup.Head.meant, Markup.Head.kept, List.any_map, Function.comp_def, hscope,
    Entries.has] using hhas

theorem hasIf_image {o : WriteOptions} {head : Markup.Head} {h : Head}
    (himage : head.image? o = some h) :
    h.directives.has "if" = head.hasAttr "s-if" := by
  have hsets (name : String) : setsDirective "if" name = (name == "s-if") := by
    simp [setsDirective]
  rw [has_image himage (by decide)]
  simp [hsets, Markup.Head.hasAttr, Entries.has]

theorem isElse_image {o : WriteOptions} {head : Markup.Head} {h : Head}
    (himage : head.image? o = some h) : h.isElse = head.carriesElse := by
  have helse (name : String) : setsDirective "else" name = (name == "s-else") := by
    simp [setsDirective]
  have helif (name : String) :
      setsDirective "elif" name = (name == "s-elif" || name == "s-else-if") := by
    simp [setsDirective]
  rw [Head.isElse, has_image himage (by decide), has_image himage (by decide), Bool.eq_iff_iff]
  simp only [helse, helif, Markup.Head.carriesElse, Markup.Head.hasAttr, Entries.has,
    Bool.or_eq_true, List.any_eq_true]
  grind

/-! ## Trees -/

theorem writeElement_toList (o : WriteOptions) (e : Markup.Element) :
    (writeElement o e).toList =
      ownText o e.head e.children ++ (writeBranches o e.branches).toList := by
  obtain ⟨head, children, branches⟩ := e
  simp [writeElement, ownText]

theorem opens_writeElement {o : WriteOptions} {e : Markup.Element} (hhead : e.head.isRegular)
    (rest : List Char) : Opens ((writeElement o e).toList ++ rest) := by
  rw [writeElement_toList, ownText, List.append_assoc, List.append_assoc]
  obtain ⟨c, cs, hopen, hc⟩ := startTag_opens (o := o) hhead _
  rw [hopen]
  exact .inr (by simp [atMarkup, hc])

theorem opens_writeNodes {o : WriteOptions} {nodes : List Markup.Node}
    (hr : nodesRegular o nodes) (htext : startsWithText nodes = false) {rest : List Char}
    (hrest : Opens rest) : Opens ((writeNodes o nodes).toList ++ rest) := by
  cases nodes with
  | nil => simpa [writeNodes] using hrest
  | cons node nodes =>
    cases node with
    | element e =>
      obtain ⟨head, children, branches⟩ := e
      simp only [nodesRegular, Markup.Element.isRegular, Bool.and_eq_true] at hr
      have := opens_writeElement (o := o) (e := ⟨head, children, branches⟩) hr.1.2.1.1.1.1
        ((writeNodes o nodes).toList ++ rest)
      simpa [writeNodes] using this
    | text content span => simp [startsWithText] at htext
    | comment content span => simp [nodesRegular] at hr

theorem branches_of_elseBlocks_nil {o : WriteOptions} {branches : List Branch}
    (h : elseBlocks branches = []) :
    writeBranches o branches = "" ∧ branchesImage? o branches = some [] := by
  induction branches with
  | nil => exact ⟨rfl, rfl⟩
  | cons b branches ih =>
    obtain ⟨test, block⟩ := b
    cases block with
    | owner => exact ih h
    | element e => simp [elseBlocks] at h

theorem settle_else {h : Head} (helse : h.isElse = true) (nodes : List Node) {owner : Head}
    (hif : owner.directives.has "if" = true) (children : List Node) (elses : List Element)
    (done : List Node) :
    settle ⟨h, nodes, []⟩ (.element ⟨owner, children, elses⟩ :: done) =
      some (.element ⟨owner, children, elses ++ [⟨h, nodes, []⟩]⟩ :: done) := by
  simp [settle, helse, foldElse, hif]

theorem settle_node {h : Head} (helse : h.isElse = false) (nodes done : List Node) :
    settle ⟨h, nodes, []⟩ done = some (.element ⟨h, nodes, []⟩ :: done) := by
  simp [settle, helse]

/-- An element is read behind any nodes, and then its else branches are read to its elses. -/
def ElementLeads (o : WriteOptions) (e : Markup.Element) (t : Element) : Prop :=
  (∀ done done' rest, settle ⟨t.head, t.children, []⟩ done = some done' →
    Leads (ownText o e.head e.children) done done' rest) ∧
  ∀ done rest, Leads (writeBranches o e.branches).toList
    (.element ⟨t.head, t.children, []⟩ :: done) (.element t :: done) rest

theorem image_head {o : WriteOptions} {e : Markup.Element} {t : Element}
    (himage : e.image? o = some t) : e.head.image? o = some t.head := by
  obtain ⟨head, children, branches⟩ := e
  obtain ⟨h, hh, himage⟩ := Option.bind_eq_some_iff.1 himage
  obtain ⟨nodes, hnodes, himage⟩ := Option.bind_eq_some_iff.1 himage
  obtain ⟨elses, helses, himage⟩ := Option.bind_eq_some_iff.1 himage
  obtain rfl := Option.some.inj himage
  exact hh

theorem image_elses {o : WriteOptions} {e : Markup.Element} {t : Element}
    (himage : e.image? o = some t) : branchesImage? o e.branches = some t.elses := by
  obtain ⟨head, children, branches⟩ := e
  obtain ⟨h, hh, himage⟩ := Option.bind_eq_some_iff.1 himage
  obtain ⟨nodes, hnodes, himage⟩ := Option.bind_eq_some_iff.1 himage
  obtain ⟨elses, helses, himage⟩ := Option.bind_eq_some_iff.1 himage
  obtain rfl := Option.some.inj himage
  exact helses

theorem ElementLeads.node {o : WriteOptions} {e : Markup.Element} {t : Element}
    (h : ElementLeads o e t) (himage : e.image? o = some t) (helse : e.head.carriesElse = false)
    (done : List Node) (rest : List Char) :
    Leads (writeElement o e).toList done (.element t :: done) rest := by
  have hplain : t.head.isElse = false := (isElse_image (image_head himage)).trans helse
  have hown := h.1 done _ ((writeBranches o e.branches).toList ++ rest)
    (settle_node hplain t.children done)
  have := hown.trans (h.2 done rest)
  rwa [← writeElement_toList] at this

theorem ElementLeads.branch {o : WriteOptions} {e : Markup.Element} {t : Element}
    (h : ElementLeads o e t) (himage : e.image? o = some t) (helse : e.head.carriesElse = true)
    (hchain : elseBlocks e.branches = []) {owner : Head}
    (hif : owner.directives.has "if" = true) (children : List Node) (elses : List Element)
    (done : List Node) (rest : List Char) :
    Leads (writeElement o e).toList (.element ⟨owner, children, elses⟩ :: done)
      (.element ⟨owner, children, elses ++ [t]⟩ :: done) rest := by
  have hisElse : t.head.isElse = true := (isElse_image (image_head himage)).trans helse
  obtain ⟨hwrite, hempty⟩ := branches_of_elseBlocks_nil (o := o) hchain
  have hnoElses : t.elses = [] := Option.some.inj ((image_elses himage).symm.trans hempty)
  have ht : (⟨t.head, t.children, []⟩ : Element) = t := by
    obtain ⟨head, children, elses⟩ := t
    obtain rfl : elses = [] := hnoElses
    rfl
  have hown := h.1 _ _ rest (settle_else hisElse t.children hif children elses done)
  rw [ht] at hown
  rw [writeElement_toList, hwrite, String.toList_empty, List.append_nil]
  exact hown

mutual

theorem leads_element {o : WriteOptions} (ho : o.isRegular) (e : Markup.Element)
    (hr : e.isRegular o) {t : Element} (himage : e.image? o = some t) : ElementLeads o e t :=
  match e with
  | ⟨head, children, branches⟩ => by
    simp only [Markup.Element.isRegular, Bool.and_eq_true] at hr
    obtain ⟨⟨⟨⟨hhead, hvoid⟩, hchildren⟩, hchain⟩, hbranches⟩ := hr
    obtain ⟨h, hh, himage⟩ := Option.bind_eq_some_iff.1 himage
    obtain ⟨nodes, hnodes, himage⟩ := Option.bind_eq_some_iff.1 himage
    obtain ⟨elses, helses, himage⟩ := Option.bind_eq_some_iff.1 himage
    obtain rfl := Option.some.inj himage
    refine ⟨fun done done' rest hsettle => ?_, fun done rest => ?_⟩
    · refine leads_own ho hhead (fun hv => ?_) hh (fun rest hrest => ?_) hsettle rest
      · simp only [hv, Bool.not_true, Bool.false_or, Bool.and_eq_true, beq_iff_eq,
          List.isEmpty_iff] at hvoid
        obtain ⟨hlower, rfl⟩ := hvoid
        exact ⟨hlower, rfl, (Option.some.inj hnodes).symm⟩
      · have := leads_nodes ho children hchildren hnodes hrest []
        simpa using this
    · rcases Bool.or_eq_true _ _ ▸ hchain with hnone | hif
      · obtain ⟨hwrite, hempty⟩ := branches_of_elseBlocks_nil (o := o) (List.isEmpty_iff.1 hnone)
        obtain rfl : [] = elses := Option.some.inj (hempty.symm.trans helses)
        rw [hwrite]
        exact .refl _ rest
      · have :=
          leads_branches ho branches hbranches helses (hasIf_image hh ▸ hif) nodes [] done rest
        simpa using this

theorem leads_nodes {o : WriteOptions} (ho : o.isRegular) (nodes : List Markup.Node)
    (hr : nodesRegular o nodes) {images : List Node} (himage : nodesImage? o nodes = some images)
    {rest : List Char} (hrest : Opens rest) (done : List Node) :
    Leads (writeNodes o nodes).toList done (images.reverse ++ done) rest :=
  match nodes with
  | [] => by
    obtain rfl := Option.some.inj himage
    exact .refl done rest
  | .element e :: nodes => by
    simp only [nodesRegular, Bool.and_eq_true, Bool.not_eq_true'] at hr
    obtain ⟨⟨hnoElse, he⟩, hnodes⟩ := hr
    obtain ⟨t, ht, himage⟩ := Option.bind_eq_some_iff.1 himage
    obtain ⟨images, himages, himage⟩ := Option.bind_eq_some_iff.1 himage
    obtain rfl := Option.some.inj himage
    have hfirst := (leads_element ho e he ht).node ht hnoElse done
      ((writeNodes o nodes).toList ++ rest)
    have hlast := leads_nodes ho nodes hnodes himages hrest (.element t :: done)
    have := hfirst.trans hlast
    simpa [writeNodes] using this
  | .text content _ :: nodes => by
    simp only [nodesRegular, Bool.and_eq_true, Bool.not_eq_true'] at hr
    obtain ⟨⟨hcalm, hnext⟩, hnodes⟩ := hr
    obtain ⟨text, htext, himage⟩ := Option.bind_eq_some_iff.1 himage
    obtain ⟨images, himages, himage⟩ := Option.bind_eq_some_iff.1 himage
    obtain rfl := Option.some.inj himage
    have hfirst := leads_text hcalm htext (opens_writeNodes hnodes hnext hrest) done
    have hlast := leads_nodes ho nodes hnodes himages hrest (text.reverse ++ done)
    have := hfirst.trans hlast
    simpa [writeNodes] using this
  | .comment _ _ :: nodes => by simp [nodesRegular] at hr

theorem leads_branches {o : WriteOptions} (ho : o.isRegular) (branches : List Branch)
    (hr : branchesRegular o branches) {images : List Element}
    (himage : branchesImage? o branches = some images) {owner : Head}
    (hif : owner.directives.has "if" = true) (children : List Node) (elses : List Element)
    (done : List Node) (rest : List Char) :
    Leads (writeBranches o branches).toList (.element ⟨owner, children, elses⟩ :: done)
      (.element ⟨owner, children, elses ++ images⟩ :: done) rest :=
  match branches with
  | [] => by
    obtain rfl := Option.some.inj himage
    rw [List.append_nil]
    exact .refl _ rest
  | ⟨_, .owner⟩ :: branches =>
    leads_branches ho branches hr himage hif children elses done rest
  | ⟨_, .element e⟩ :: branches => by
    simp only [branchesRegular, Bool.and_eq_true, List.isEmpty_iff] at hr
    obtain ⟨⟨⟨helse, hchain⟩, he⟩, hbranches⟩ := hr
    obtain ⟨t, ht, himage⟩ := Option.bind_eq_some_iff.1 himage
    obtain ⟨images, himages, himage⟩ := Option.bind_eq_some_iff.1 himage
    obtain rfl := Option.some.inj himage
    have hfirst := (leads_element ho e he ht).branch ht helse hchain hif children elses done
      ((writeBranches o branches).toList ++ rest)
    have hlast := leads_branches ho branches hbranches himages hif children (elses ++ [t]) done rest
    have := hfirst.trans hlast
    simpa [writeBranches] using this

end

/-! ## Accepted trees have images -/

theorem head_image_isSome {o : WriteOptions} {head : Markup.Head} (ha : head.isAccepted o) :
    (head.image? o).isSome := by
  simpa [Markup.Head.image?] using applyAll_isSome ha { tag := head.tag }

theorem textImage_isSome {cs : List Char} (ha : acceptsText cs) : (textImage? cs).isSome := by
  unfold textImage?
  split
  · rfl
  · simpa [acceptsText] using ha

mutual

theorem image_isSome {o : WriteOptions} (e : Markup.Element) (ha : e.isAccepted o) :
    (e.image? o).isSome :=
  match e with
  | ⟨head, children, branches⟩ => by
    simp only [Markup.Element.isAccepted, Bool.and_eq_true] at ha
    obtain ⟨h, hh⟩ := Option.isSome_iff_exists.1 (head_image_isSome ha.1.1)
    obtain ⟨nodes, hnodes⟩ := Option.isSome_iff_exists.1 (nodesImage_isSome children ha.1.2)
    obtain ⟨elses, helses⟩ := Option.isSome_iff_exists.1 (branchesImage_isSome branches ha.2)
    simp [Markup.Element.image?, hh, hnodes, helses]

theorem nodesImage_isSome {o : WriteOptions} (nodes : List Markup.Node)
    (ha : nodesAccepted o nodes) : (nodesImage? o nodes).isSome :=
  match nodes with
  | [] => rfl
  | .element e :: nodes => by
    simp only [nodesAccepted, Bool.and_eq_true] at ha
    obtain ⟨t, ht⟩ := Option.isSome_iff_exists.1 (image_isSome e ha.1)
    obtain ⟨images, himages⟩ := Option.isSome_iff_exists.1 (nodesImage_isSome nodes ha.2)
    simp [nodesImage?, ht, himages]
  | .text content _ :: nodes => by
    simp only [nodesAccepted, Bool.and_eq_true] at ha
    obtain ⟨text, htext⟩ := Option.isSome_iff_exists.1 (textImage_isSome ha.1)
    obtain ⟨images, himages⟩ := Option.isSome_iff_exists.1 (nodesImage_isSome nodes ha.2)
    simp [nodesImage?, htext, himages]
  | .comment _ _ :: nodes => nodesImage_isSome nodes ha

theorem branchesImage_isSome {o : WriteOptions} (branches : List Branch)
    (ha : branchesAccepted o branches) : (branchesImage? o branches).isSome :=
  match branches with
  | [] => rfl
  | ⟨_, .owner⟩ :: branches => branchesImage_isSome branches ha
  | ⟨_, .element e⟩ :: branches => by
    simp only [branchesAccepted, Bool.and_eq_true] at ha
    obtain ⟨t, ht⟩ := Option.isSome_iff_exists.1 (image_isSome e ha.1)
    obtain ⟨images, himages⟩ := Option.isSome_iff_exists.1 (branchesImage_isSome branches ha.2)
    simp [branchesImage?, ht, himages]

end

/-- The markup of a regular tree that San accepts is read to its end, as the image of the tree. -/
theorem read_writeNodes {o : WriteOptions} {e : Markup.Element} (ho : o.isRegular)
    (hr : nodesRegular o [.element e]) (ha : e.isAccepted o) :
    ∃ t, e.image? o = some t ∧
      read (writeNodes o [.element e]) = .ok [.element t] ∧
      readNodes ((writeNodes o [.element e]).toList.length + 1) []
          (Cursor.start (writeNodes o [.element e])) =
        .ok ([.element t], ⟨byteLength (writeNodes o [.element e]).toList, []⟩) := by
  obtain ⟨t, ht⟩ := Option.isSome_iff_exists.1 (image_isSome e ha)
  have himage : nodesImage? o [.element e] = some [.element t] := by simp [nodesImage?, ht]
  have hlead := leads_nodes ho [.element e] hr himage (.inl rfl) []
  obtain ⟨m, hm, hread⟩ := hlead ((writeNodes o [.element e]).toList.length + 1) 0 (by simp)
  obtain ⟨m, rfl⟩ : ∃ k, m = k + 1 := ⟨m - 1, by omega⟩
  have hend : readNodes ((writeNodes o [.element e]).toList.length + 1) []
      (Cursor.start (writeNodes o [.element e])) =
        .ok ([.element t], ⟨byteLength (writeNodes o [.element e]).toList, []⟩) := by
    simpa [readNodes, Cursor.atEnd, Cursor.start] using hread
  refine ⟨t, ht, ?_, hend⟩
  have hstart : (Cursor.start (writeNodes o [.element e])).rest =
      (writeNodes o [.element e]).toList := rfl
  simp only [read, hstart, hend, ok_bind]
  rfl

def samplePage : Markup.Element :=
  ⟨{ tag := "div", attrs := [("title", "say  \"hi\""), ("hidden", "")] },
    [.ofText "  a {{ b<c }} ", .element (.ofTag "br"), .ofText " ",
      .element ⟨{ tag := "p", attrs := [("s-if", "x")] }, [],
        [⟨some "x", .owner⟩,
          ⟨none, .element ⟨{ tag := "b", attrs := [("s-else", "")] }, [], []⟩⟩]⟩],
    []⟩

def samplePageOptions : WriteOptions := { scopeId := some "1", stripWhitespace := true }

theorem samplePage_read :
    ∃ t, samplePage.image? samplePageOptions = some t ∧
      read ("<div title=\"say &quot;hi&quot;\" hidden data-v-1>a \x7b\x7b b<c \x7d\x7d" ++
        "<br data-v-1><p s-if=\"x\" data-v-1></p><b s-else data-v-1></b></div>") =
        .ok [.element t] := by
  have hwritten : writeNodes samplePageOptions [.element samplePage] =
      "<div title=\"say &quot;hi&quot;\" hidden data-v-1>a \x7b\x7b b<c \x7d\x7d" ++
        "<br data-v-1><p s-if=\"x\" data-v-1></p><b s-else data-v-1></b></div>" := by
    decide +kernel
  obtain ⟨t, himage, hread, -⟩ :=
    read_writeNodes (o := samplePageOptions) (e := samplePage)
      (by decide +kernel) (by decide +kernel) (by decide +kernel)
  exact ⟨t, himage, hwritten ▸ hread⟩

end VueToSan.San
