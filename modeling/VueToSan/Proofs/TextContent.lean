import VueToSan.Proofs.BracedCode
import VueToSan.Proofs.PlainMarkup
import VueToSan.Proofs.StrayEndTags
import VueToSan.Proofs.StructuralCode

/-!
# Texts in place of children

The text directive leaves one text, an interpolation of its code. Where the interpolation ends is
seen twice when the markup is read: the text is taken up to the next tag behind the first closing
braces, and in the text braces nest and quotes hide them. The element is read with that text as its
only child just when both end behind the code.
-/

namespace VueToSan.San

open VueToSan.Text VueToSan.Markup VueToSan.Transform

/-! ## Nodes that were read -/

def Node.stem : Node → Node
  | .text value => .text value
  | .element e => .element { e with elses := [] }

theorem stems_foldElse {branch : Element} {done done' : List Node}
    (h : foldElse branch done = some done') : done'.map Node.stem = done.map Node.stem := by
  induction done generalizing done' with
  | nil => cases h
  | cons node done ih =>
    cases node with
    | text value =>
      obtain ⟨rest, hrest, rfl⟩ := Option.map_eq_some_iff.1 h
      rw [List.map_cons, ih hrest, List.map_cons]
    | element e =>
      rw [foldElse] at h
      split at h
      · obtain rfl := Option.some.inj h
        rfl
      · cases h

theorem Reads.stems {done nodes : List Node} {c stop : Cursor} (h : Reads done c nodes stop) :
    done.reverse.map Node.stem <+: nodes.map Node.stem := by
  have hsettled {e : Element} {done done' : List Node} (h : settle e done = some done') :
      done.reverse.map Node.stem <+: done'.reverse.map Node.stem := by
    unfold settle at h
    split at h
    · rw [List.map_reverse, List.map_reverse, stems_foldElse h]
    · obtain rfl := Option.some.inj h
      simp
  induction h with
  | ends => exact List.prefix_rfl
  | declaration _ _ ih => exact ih
  | blank _ _ _ ih => exact ih
  | text _ _ _ _ ih => exact (List.prefix_append _ [_]).trans (by simpa using ih)
  | single _ _ _ hsettle _ ih => exact (hsettled hsettle).trans ih
  | element _ _ _ _ _ hsettle _ _ ih => exact (hsettled hsettle).trans ih

theorem Reads.inside {t : Element} {c inside stop : Cursor} {head : Head}
    (h : Reads [] c [.element t] stop) (hnext : nextPiece c = .element)
    (hstart : readStartTag c = .ok (head, false, inside)) (hmore : isVoid head.tag = false) :
    ∃ last, Reads [] inside t.children last := by
  cases h with
  | @element _ done' children _ _ _ _ _ _ _ _ _ hother _ hinside _ hsettle hrest =>
    obtain ⟨rfl, hinner⟩ := Prod.mk.inj (Except.ok.inj (hstart.symm.trans hother))
    obtain ⟨rfl, rfl⟩ := Prod.mk.inj hinner
    have hdone : [.element ⟨head, children, []⟩] = done' := by
      unfold settle at hsettle
      split at hsettle
      · cases hsettle
      · exact Option.some.inj hsettle
    subst hdone
    have hstem : [(Node.element ⟨head, children, []⟩).stem] <+: [(Node.element t).stem] :=
      hrest.stems
    obtain ⟨heq, -⟩ := List.cons_prefix_cons.1 hstem
    obtain rfl : children = t.children := congrArg Element.children (Node.element.inj heq)
    exact ⟨_, hinside⟩
  | single _ hother hself =>
    obtain ⟨rfl, hinner⟩ := Prod.mk.inj (Except.ok.inj (hstart.symm.trans hother))
    obtain ⟨rfl, rfl⟩ := Prod.mk.inj hinner
    rw [hmore] at hself
    cases hself
  | text hother => cases hnext.symm.trans hother
  | blank hother => cases hnext.symm.trans hother
  | declaration hother => cases hnext.symm.trans hother

/-! ## Interpolations -/

theorem spanInterpolation_split {depth : Nat} {quote : Option Char} {cs code rest : List Char}
    (h : spanInterpolation depth quote cs = some (code, rest)) :
    cs = code ++ '}' :: '}' :: rest := by
  fun_induction spanInterpolation depth quote cs generalizing code with
  | case1 depth q c cs ih =>
    obtain ⟨⟨inner, _⟩, hinner, heq⟩ := Option.map_eq_some_iff.1 h
    obtain ⟨rfl, rfl⟩ := Prod.mk.inj heq
    rw [ih hinner]
    rfl
  | case2 depth q c cs _ ih =>
    obtain ⟨⟨inner, _⟩, hinner, heq⟩ := Option.map_eq_some_iff.1 h
    obtain ⟨rfl, rfl⟩ := Prod.mk.inj heq
    rw [ih hinner]
    rfl
  | case3 cs =>
    obtain ⟨rfl, rfl⟩ := Prod.mk.inj (Option.some.inj h)
    rfl
  | case4 depth c cs _ next =>
    rename_i hquote hopen hclose hother
    obtain ⟨⟨inner, behind⟩, hinner, heq⟩ := Option.map_eq_some_iff.1 h
    obtain ⟨rfl, rfl⟩ := Prod.mk.inj heq
    -- Wherever the scanner goes on, it finds the end in `cs`.
    have hcs : cs = inner ++ '}' :: '}' :: behind := by
      dsimp only [next] at hinner
      split_ifs at hinner
      · exact hquote hinner
      · exact hopen hinner
      · exact hclose hinner
      · exact hother hinner
    rw [hcs]
    rfl
  | case5 => cases h

theorem eq_nil_of_segments {span : Span} {seen cs : List Char}
    (h : segmentsFrom span 0 seen cs = .ok []) : seen = [] ∧ cs = [] := by
  generalize hskip : 0 = skip at h
  fun_induction segmentsFrom span skip seen cs with
  | case1 skip seen => simpa [literalSegment] using h
  | case2 => cases hskip
  | case3 seen cs hspan => simp [literalSegment] at h
  | case4 seen cs code rest hspan ih =>
    obtain ⟨e, -, h₁⟩ := bind_eq_ok.1 h
    obtain ⟨segments, -, h₂⟩ := bind_eq_ok.1 h₁
    simp at h₂
  | case5 seen c cs _ ih => exact absurd (ih rfl h).1 (List.cons_ne_nil c seen)

/-- Reading takes the interpolation of a code for one, and no more: no markup stands behind the
first closing braces, and braces and quotes in the code end with the code. -/
structure IsDelimited (code : String) : Prop where
  calm : isCalm false (interpolate code).toList = true
  closed : spanInterpolation 0 none ((' ' :: (code.toList ++ [' '])) ++ ['}', '}']) =
    some (' ' :: (code.toList ++ [' ']), [])

theorem closed_of_readText {code : String} {span : Span} {p : Expr.Piped} {raw : Option String}
    (h : readText (interpolate code).toList span = .ok ⟨.expr p, raw⟩) :
    spanInterpolation 0 none ((' ' :: (code.toList ++ [' '])) ++ ['}', '}']) =
      some (' ' :: (code.toList ++ [' ']), []) := by
  rw [interpolate_toList, readText, segmentsFrom] at h
  cases hspan : spanInterpolation 0 none ((' ' :: (code.toList ++ [' '])) ++ ['}', '}']) with
  | none =>
    rw [hspan] at h
    simp [literalSegment] at h
  | some parts =>
    obtain ⟨inner, rest⟩ := parts
    rw [hspan] at h
    obtain ⟨segments, hsegments, hkind⟩ := bind_eq_ok.1 h
    obtain ⟨e, -, h₁⟩ := bind_eq_ok.1 hsegments
    obtain ⟨more, hmore, h₂⟩ := bind_eq_ok.1 h₁
    obtain rfl := Except.ok.inj h₂
    have hsplit := spanInterpolation_split hspan
    cases more with
    | nil =>
      have hskip := segmentsFrom_skip span [] (inner ++ ['}', '}']) rest
      rw [List.append_assoc, List.length_append] at hskip
      rw [hsplit] at hmore
      obtain ⟨-, rfl⟩ := eq_nil_of_segments (hskip.symm.trans hmore)
      rw [List.append_cancel_right hsplit]
    | cons segment more => simp [literalSegment] at hkind

/-! ## Elements -/

variable {o : WriteOptions} {head : Markup.Head} {code : String} {p : Expr.Piped}

theorem readText_raw {cs : List Char} {span : Span} {value : Value}
    (h : readText cs span = .ok value) : value.raw = some (String.ofList cs) := by
  obtain ⟨segments, -, hvalue⟩ := bind_eq_ok.1 h
  obtain rfl := Except.ok.inj hvalue
  rfl

theorem nextPiece_interpolate (code : String) (pos : Nat) (rest : List Char) :
    nextPiece ⟨pos, (interpolate code).toList ++ rest⟩ = .text := by
  rw [interpolate_toList]
  exact nextPiece_text (List.cons_ne_nil _ _) rfl

theorem not_blank_interpolate (code : String) (rest : List Char) :
    (textRun false ((interpolate code).toList ++ rest)).all isBlank = false := by
  rw [interpolate_toList]
  simp [textRun, isBlank]

theorem IsDelimited.reads (h : IsDelimited code) (hframed : Framed code.toList)
    (hparse : Expr.parse code = .ok p) (pos : Nat) (rest : List Char) :
    Reads [] ⟨pos, (interpolate code).toList ++ '<' :: '/' :: rest⟩
      [.text ⟨.expr p, some (interpolate code)⟩]
      ⟨pos + byteLength (interpolate code).toList, '<' :: '/' :: rest⟩ := by
  have hrun : textRun false ((interpolate code).toList ++ '<' :: '/' :: rest) =
      (interpolate code).toList := textRun_calm h.calm (.inr rfl)
  have hvalue (span : Span) : readText (interpolate code).toList span =
      .ok ⟨.expr p, some (interpolate code)⟩ := by
    rw [readText_closed h.closed, readExpr, hframed.trim_eq, String.ofList_toList, hparse]
    rfl
  refine .text (nextPiece_interpolate code pos _) (not_blank_interpolate code _)
    (by rw [hrun]; exact hvalue _) ?_
  rw [hrun, Cursor.advance_append]
  exact .ends (nextPiece_ends.2 (.inr ⟨rest, rfl⟩))

theorem Reads.isDelimited {pos : Nat} {rest : List Char} {last : Cursor} (hrest : rest ≠ [])
    (h : Reads [] ⟨pos, (interpolate code).toList ++ rest⟩
      [.text ⟨.expr p, some (interpolate code)⟩] last) : IsDelimited code := by
  have hnext := nextPiece_interpolate code pos rest
  cases h with
  | @text _ _ _ _ value _ _ hvalue hreads =>
    have hstem : [(Node.text value).stem] <+:
      [(Node.text ⟨.expr p, some (interpolate code)⟩).stem] := hreads.stems
    obtain ⟨heq, -⟩ := List.cons_prefix_cons.1 hstem
    obtain rfl := Node.text.inj heq
    have hraw : interpolate code = String.ofList _ := Option.some.inj (readText_raw hvalue)
    have hrun : (interpolate code).toList = textRun false ((interpolate code).toList ++ rest) := by
      simpa using congrArg String.toList hraw
    constructor
    · have hstops : (interpolate code).toList ++ rest =
          textRun false ((interpolate code).toList ++ rest) ++ rest :=
        congrArg (· ++ rest) hrun
      exact hrun.symm ▸ (textRun_stops hstops hrest).1
    · rw [← hrun] at hvalue
      exact closed_of_readText hvalue
  | blank _ hblank _ => cases (not_blank_interpolate code rest).symm.trans hblank
  | declaration hother => cases hnext.symm.trans hother
  | single hother => cases hnext.symm.trans hother
  | element hother => cases hnext.symm.trans hother

theorem writeText_interpolate (o : WriteOptions) (code : String) :
    writeText o (interpolate code) = interpolate code := by
  rw [← String.toList_inj, writeText]
  split
  · rw [interpolate_toList, String.toList_ofList]
    simp [dropEndWhile, isStripped]
  · rfl

theorem writeElement_text (o : WriteOptions) (head : Markup.Head) (code : String) :
    (writeElement o ⟨head, [.ofText (interpolate code)], []⟩).toList =
      (writeStartTag o head).toList ++
        ((interpolate code).toList ++ ("</" ++ head.tag ++ ">").toList) := by
  simp [writeElement, writeNodes, Node.ofText, writeText_interpolate, writeEndTag, writeBranches]

theorem read_writeElement_text (ho : o.isRegular) (hattrs : head.attrs = [])
    (htag : isTagName head.tag) (hvoid : isVoid head.tag = false)
    (hframed : Framed code.toList) (hparse : Expr.parse code = .ok p) :
    (∃ t, read (writeElement o ⟨head, [.ofText (interpolate code)], []⟩) = .ok [.element t] ∧
      t.head.tag = head.tag ∧ t.elses = [] ∧
      t.children = [.text ⟨.expr p, some (interpolate code)⟩]) ↔ IsDelimited code := by
  have hregular : head.isRegular := by simp [Markup.Head.isRegular, hattrs, htag]
  have haccepted : head.isAccepted o := isAccepted_of_settled (by simp [hattrs]) o
  obtain ⟨h, himage⟩ := Option.isSome_iff_exists.1 (head_image_isSome haccepted)
  have hstart := readStartTag_written ho hregular himage 0
    ((interpolate code).toList ++ ("</" ++ head.tag ++ ">").toList)
  rw [← writeElement_text] at hstart
  have hnext : nextPiece (.start (writeElement o ⟨head, [.ofText (interpolate code)], []⟩)) =
      .element := by
    obtain ⟨c, cs, hopen, hc⟩ := startTag_opens (o := o) hregular
      ((interpolate code).toList ++ ("</" ++ head.tag ++ ">").toList)
    rw [Cursor.start, writeElement_text, hopen]
    exact nextPiece_element hc
  have hmore : isVoid h.tag = false := by rw [tag_image himage, hvoid]
  -- Both directions are about the text behind the start tag, which is read up to the end tag.
  constructor
  · rintro ⟨t, hread, -, -, hchildren⟩
    obtain ⟨stop, hreads⟩ := read_eq_ok.1 hread
    obtain ⟨last, hinside⟩ := hreads.inside hnext hstart hmore
    rw [hchildren] at hinside
    exact hinside.isDelimited (by simp)
  · intro hdelimited
    have helse : h.isElse = false := by
      rw [isElse_image himage]
      simp [Markup.Head.carriesElse, Markup.Head.hasAttr, Entries.has, hattrs]
    have hinside := hdelimited.reads hframed hparse
      (0 + byteLength (writeStartTag o head).toList) (head.tag.toList ++ ['>'])
    have hend : ("</" ++ head.tag ++ ">").toList = '<' :: '/' :: (head.tag.toList ++ ['>']) := by
      simp
    rw [← hend] at hinside
    have hclose := readEndTag_written htag 0
      (0 + byteLength (writeStartTag o head).toList + byteLength (interpolate code).toList) []
    rw [List.append_nil] at hclose
    nth_rewrite 1 [← tag_image himage] at hclose
    have hreads := Reads.element hnext hstart hmore hinside hclose (settle_node helse _ [])
      (.ends (nextPiece_ends.2 (.inl rfl)))
    exact ⟨_, read_eq_ok.2 ⟨_, hreads⟩, tag_image himage, rfl, rfl⟩

end VueToSan.San

namespace VueToSan.Transform

open VueToSan.Text VueToSan.Markup VueToSan.San

/-! ## Tags behind braces -/

/-- What looks like a tag stands somewhere behind two closing braces. -/
def TagBehindBraces (code : List Char) : Prop :=
  ∃ rest ∈ code.tails, ['}', '}'] <+: rest ∧ ∃ tag ∈ rest.tails, atMarkup tag = true

instance (code : List Char) : Decidable (TagBehindBraces code) :=
  inferInstanceAs (Decidable (∃ rest ∈ code.tails, _ ∧ ∃ tag ∈ rest.tails, atMarkup tag = true))

theorem TagBehindBraces.of_suffix {code part : List Char} (h : TagBehindBraces part)
    (hpart : part <:+ code) : TagBehindBraces code := by
  obtain ⟨rest, hrest, hbehind⟩ := h
  exact ⟨rest, (List.mem_tails ..).2 (((List.mem_tails ..).1 hrest).trans hpart), hbehind⟩

theorem atMarkup_blank (cs rest : List Char) : atMarkup (cs ++ ' ' :: rest) = atMarkup cs := by
  cases cs with
  | nil => rfl
  | cons c cs =>
    by_cases hc : c = '<'
    · subst hc
      cases cs <;> rfl
    · simp [atMarkup, hc]

theorem isCalm_closed {inBraces : Bool} {code : List Char} (hbraces : ¬TagBehindBraces code)
    (hout : inBraces = false → ∀ tag, tag <:+ code → atMarkup tag = false) :
    isCalm inBraces (code ++ [' ', '}', '}']) = true := by
  fun_induction isCalm inBraces code with
  | case1 code ih =>
    exact ih (fun h => hbraces (h.of_suffix ⟨['{', '{'], rfl⟩)) fun hin => Bool.noConfusion hin
  | case2 code ih =>
    refine ih (fun h => hbraces (h.of_suffix ⟨['}', '}'], rfl⟩)) fun _ tag htag => ?_
    rw [Bool.eq_false_iff]
    intro hmarkup
    have hinside : tag ∈ ('}' :: '}' :: code).tails :=
      (List.mem_tails ..).2 (htag.trans ⟨['}', '}'], rfl⟩)
    exact hbraces ⟨_, (List.mem_tails ..).2 List.suffix_rfl, ⟨code, rfl⟩, tag, hinside, hmarkup⟩
  | case3 inBraces c code hopen hclose ih =>
    have hrest := ih (fun h => hbraces (h.of_suffix (List.suffix_cons c code)))
      fun hin tag htag => hout hin tag (htag.trans (List.suffix_cons c code))
    have hfirst : (inBraces || !atMarkup (c :: (code ++ [' ', '}', '}']))) = true := by
      cases inBraces with
      | true => rfl
      | false =>
        rw [← List.cons_append, atMarkup_blank, hout rfl _ List.suffix_rfl]
        rfl
    -- The blank keeps a brace of the code apart from those behind it.
    have hpair (d : Char) (ds : List Char) (hd : d ≠ ' ') (h : code ++ [' ', '}', '}'] = d :: ds) :
        ∃ ds', code = d :: ds' := by
      cases code with
      | nil => exact absurd (List.cons.inj h).1.symm hd
      | cons d' code => exact ⟨code, congrArg (· :: code) (List.cons.inj h).1⟩
    rw [List.cons_append, isCalm, hrest, hfirst]
    · rfl
    · rintro ds rfl rfl hds
      obtain ⟨ds', rfl⟩ := hpair _ _ (by decide) hds
      exact hopen ds' rfl rfl rfl
    · rintro ds rfl rfl hds
      obtain ⟨ds', rfl⟩ := hpair _ _ (by decide) hds
      exact hclose ds' rfl rfl rfl
  | case4 inBraces => cases inBraces <;> rfl

theorem isDelimited_compile {source : String} {compiled : Expr.Compiled}
    (hcompile : Expr.compile source = .ok compiled)
    (hmarks : ∀ e, Expr.parse source = .ok e → ∀ f ∈ e.filters, f.isUnmarked)
    (hbraces : ¬TagBehindBraces compiled.text.toList) : IsDelimited compiled.text where
  calm := by
    have hcalm : isCalm true (compiled.text.toList ++ [' ', '}', '}']) = true :=
      isCalm_closed hbraces fun hin => Bool.noConfusion hin
    rw [interpolate_toList]
    simpa [isCalm] using hcalm
  closed := San.Crosses.spanInterpolation_closed (Expr.plain_compile hcompile hmarks) []

/-! ## The text directive -/

variable {o : WriteOptions} {h : Markup.Head} {source : String} {span : Span}
  {compiled : Expr.Compiled} {p : Expr.Piped}

theorem transformContent_text (hattrs : h.attrs = [("v-text", source)])
    (hdeclared : h.declared = [⟨"v-text", source, span⟩]) (hsource : allBlank source = false)
    (hcompile : Expr.compile source = .ok compiled) (children : List Markup.Node) :
    transformContent ⟨h.extract.1, children, []⟩ =
      .done ⟨h.extract.1.removeAttr "v-text", [.ofText (interpolate compiled.text)], []⟩ := by
  have hentries : h.extract.1.attrs = [("v-text", source)] := hattrs
  have hdirectives : h.extract.1.directives = [⟨"text", "v-text", source, none, []⟩] := by
    have hextract : h.extract.1.directives = h.declared.filterMap (·.directive?) := rfl
    have hread : (⟨"v-text", source, span⟩ : Attr).directive? =
        some ⟨"text", "v-text", source, none, []⟩ := by
      simp [Attr.directive?, stripStart?, splitOn, breakAt?, structuralDirectives]
    rw [hextract, hdeclared, List.filterMap_cons_some hread, List.filterMap_nil]
  have hrenamed (form : String) (wrap : String → String) (hform : "v-" ++ form ≠ "v-text") :
      renameHtml form wrap h.extract.1 = h.extract.1 := by
    rw [renameHtml, Head.attr?, Entries.get?, hentries]
    simp [hform]
  have hhtml : contentSource? h.extract.1 "html" = none := by
    simp [contentSource?, Head.hasAttr, Entries.has, hentries]
  have htext : contentSource? h.extract.1 "text" = some source := by
    simp [contentSource?, directiveValue?, Markup.Head.directive?, Head.hasAttr, Entries.has,
      hentries, hdirectives, hsource]
  rw [transformContent, hrenamed _ _ (by decide), hrenamed _ _ (by decide), transformHtml, hhtml,
    Edit.andThen, transformText, htext]
  simp only [Edit.withCode, Edit.withCompiled, hcompile]

/-- The text directive leaves an element that is written, and read again as the element with a
single text, the expression of the code, just when reading takes the interpolation of the code for
one. It does unless the code has what looks like a tag behind two closing braces, or a filter of the
source names the mark. -/
theorem transformContent_text_read (ho : o.isRegular) (htag : isTagName h.tag)
    (hvoid : isVoid h.tag = false) (hattrs : h.attrs = [("v-text", source)])
    (hdeclared : h.declared = [⟨"v-text", source, span⟩])
    (hcompile : Expr.compile source = .ok compiled) (hparse : Expr.parse compiled.text = .ok p)
    (children : List Markup.Node) :
    ∃ e, transformContent ⟨h.extract.1, children, []⟩ = .done e ∧
      ((∃ t, San.read (writeElement o e) = .ok [.element t] ∧ t.head.tag = h.tag ∧ t.elses = [] ∧
        t.children = [.text ⟨.expr p, some (interpolate compiled.text)⟩]) ↔
          IsDelimited compiled.text) ∧
      ((∀ parsed, Expr.parse source = .ok parsed → ∀ f ∈ parsed.filters, f.isUnmarked) →
        ¬TagBehindBraces compiled.text.toList → IsDelimited compiled.text) := by
  have hsource := not_blank_of_parse hcompile hparse
  have hrest : (h.extract.1.removeAttr "v-text").attrs = [] := by
    have hentries : h.extract.1.attrs = [("v-text", source)] := hattrs
    rw [Head.removeAttr, hentries]
    rfl
  refine ⟨_, transformContent_text hattrs hdeclared hsource hcompile children, ?_,
    isDelimited_compile hcompile⟩
  exact read_writeElement_text ho hrest htag hvoid (Expr.framed_compile hsource hcompile) hparse

def sampleTextHead (source : String) : Markup.Head where
  tag := "p"
  attrs := [("v-text", source)]
  declared := [⟨"v-text", source, ⟨3, 28⟩⟩]

def sampleNestedCode : String := "[\x7ba:\x7bb:c\x7d\x7d, '<']"

/-- Nested braces do not end the interpolation, and what stands behind them is no tag. -/
theorem sampleTextHead_read :
    ∃ compiled p e t, Expr.compile sampleNestedCode = .ok compiled ∧
      compiled.text = sampleNestedCode ∧ Expr.parse compiled.text = .ok p ∧
      transformContent ⟨(sampleTextHead sampleNestedCode).extract.1, [], []⟩ = .done e ∧
      San.read (writeElement {} e) = .ok [.element t] ∧
      t.children = [.text ⟨.expr p, some (interpolate sampleNestedCode)⟩] := by
  have hsource : (Expr.parse sampleNestedCode).toOption.any
      (fun parsed => parsed.filters.all fun f => decide f.isUnmarked) = true := by
    decide +kernel
  have hcode : (Expr.compile sampleNestedCode).toOption.map (·.text) = some sampleNestedCode := by
    decide +kernel
  obtain ⟨p, hp, hmarks⟩ := (Option.any_eq_true _ _).1 hsource
  obtain ⟨compiled, hcompile, htext⟩ := Option.map_eq_some_iff.1 hcode
  rw [toOption_eq_some] at hp hcompile
  have hmarks : ∀ f ∈ p.filters, f.isUnmarked := fun f hf =>
    of_decide_eq_true (List.all_eq_true.1 hmarks f hf)
  have hparse : Expr.parse compiled.text = .ok p := htext ▸ hp
  obtain ⟨e, he, hread, hdelimited⟩ := transformContent_text_read
    (o := {}) (h := sampleTextHead sampleNestedCode) rfl rfl rfl rfl rfl hcompile hparse []
  obtain ⟨t, ht, -, -, hchildren⟩ := hread.2 <| hdelimited
    (fun parsed hparsed => Except.ok.inj (hp.symm.trans hparsed) ▸ hmarks)
    (by rw [htext]; decide)
  exact ⟨compiled, p, e, t, hcompile, htext, hparse, he, ht, htext ▸ hchildren⟩

def sampleCutCode : String := "[\x7ba:\x7bb:c\x7d\x7d, x<y]"

/-- A comparison behind nested braces is taken for a tag, and the element is not read again. -/
theorem comparison_taken_for_tag :
    ∃ compiled p e error, Expr.compile sampleCutCode = .ok compiled ∧
      compiled.text = sampleCutCode ∧ Expr.parse compiled.text = .ok p ∧
      transformContent ⟨(sampleTextHead sampleCutCode).extract.1, [], []⟩ = .done e ∧
      San.read (writeElement {} e) = .error error := by
  have hsource : (Expr.parse sampleCutCode).toOption.isSome = true := by decide +kernel
  have hcode : (Expr.compile sampleCutCode).toOption.map (·.text) = some sampleCutCode := by
    decide +kernel
  obtain ⟨p, hp⟩ := Option.isSome_iff_exists.1 hsource
  obtain ⟨compiled, hcompile, htext⟩ := Option.map_eq_some_iff.1 hcode
  rw [toOption_eq_some] at hp hcompile
  have hdone := transformContent_text (h := sampleTextHead sampleCutCode) rfl rfl rfl hcompile []
  rw [htext] at hdone
  have hfails : (San.read (writeElement {} ⟨(sampleTextHead sampleCutCode).extract.1.removeAttr
      "v-text", [.ofText (interpolate sampleCutCode)], []⟩)).toOption.isSome = false := by
    decide +kernel
  generalize hread : San.read _ = result at hfails
  cases result with
  | ok nodes => cases hfails
  | error error => exact ⟨compiled, p, _, error, hcompile, htext, htext ▸ hp, hdone, hread⟩

end VueToSan.Transform
