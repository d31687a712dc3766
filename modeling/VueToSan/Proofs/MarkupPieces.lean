import VueToSan.Proofs.Characters
import VueToSan.Proofs.Cursors
import VueToSan.Proofs.MarkupImage
import VueToSan.Proofs.Results

/-!
# Reading pieces of written markup

A start tag gives back the attributes that were written, with the values they stand for, and a calm
text goes up to the markup behind it.
-/

namespace VueToSan.San

open VueToSan.Text VueToSan.Markup

/-! ## Spans only show up in errors -/

theorem readExpr_span (code : List Char) (s t : Span) :
    (readExpr code s).toOption = (readExpr code t).toOption := by
  simp [readExpr]

theorem readExprValue_span (code : List Char) (s t : Span) :
    (readExprValue code s).toOption = (readExprValue code t).toOption := by
  rw [readExprValue, readExprValue, toOption_bind, toOption_bind, readExpr_span code s t]

theorem segmentsFrom_span (s t : Span) (skip : Nat) (seen cs : List Char) :
    (segmentsFrom s skip seen cs).toOption = (segmentsFrom t skip seen cs).toOption := by
  fun_induction segmentsFrom s skip seen cs with
  | case1 skip seen => simp [segmentsFrom]
  | case2 seen skip c cs ih => simp [segmentsFrom, ih]
  | case3 seen cs hspan => simp [segmentsFrom, hspan]
  | case4 seen cs code rest hspan ih =>
    simp [segmentsFrom, hspan, ih, readExpr_span code s t]
  | case5 seen c cs hopen ih => simp [segmentsFrom, ih]

theorem readText_span (text : List Char) (s t : Span) :
    (readText text s).toOption = (readText text t).toOption := by
  simp [readText, segmentsFrom_span s t]

theorem readLoop_span (raw : String) (s t : Span) :
    (readLoop raw s).toOption = (readLoop raw t).toOption := by
  unfold readLoop
  cases LoopText.ofChars? raw.toList with
  | none => rfl
  | some loop =>
    obtain ⟨item, index, list, trackBy⟩ := loop
    cases trackBy with
    | none => simp [readExprValue_span _ s t]
    | some key => simp [readExprValue_span _ s t]

theorem readDirective_span (name raw : String) (s t : Span) :
    (readDirective name raw s).toOption = (readDirective name raw t).toOption := by
  unfold readDirective
  split <;> simp [readLoop_span _ s t, readExprValue_span _ s t, readText_span _ s t]

theorem readProperty_span (name : String) (value : Option String) (s t : Span) :
    (readProperty name value s).toOption = (readProperty name value t).toOption := by
  cases value with
  | none => rfl
  | some raw =>
    simp only [readProperty]
    split <;> simp [readExprValue_span _ s t, readText_span _ s t]

theorem Head.apply_span (h : Head) (name : String) (value : Option String) (s t : Span) :
    (h.apply name value s).toOption = (h.apply name value t).toOption := by
  unfold Head.apply
  split <;> simp [readListener, readExprValue_span _ s t, readDirective_span _ _ s t,
    readProperty_span _ _ s t]

theorem Head.isSome_apply (h : Head) (name : String) (value : Option String) (s : Span) :
    (h.apply name value s).toOption.isSome = acceptsAttr name value := by
  rw [acceptsAttr, Head.apply_span h name value s ⟨0, 0⟩]
  unfold Head.apply
  split <;> simp [Option.isSome_bind, readListener]

theorem applyAll_isSome {attrs : List (String × Option String)}
    (ha : attrs.all fun (name, value) => acceptsAttr name value) (h : Head) :
    (applyAll h attrs).isSome := by
  induction attrs generalizing h with
  | nil => rfl
  | cons a attrs ih =>
    obtain ⟨name, value⟩ := a
    simp only [List.all_cons, Bool.and_eq_true] at ha
    have hfirst : (h.apply name value ⟨0, 0⟩).toOption.isSome := by
      rw [Head.isSome_apply]
      exact ha.1
    obtain ⟨h', hh'⟩ := Option.isSome_iff_exists.1 hfirst
    have hrest := ih ha.2 h'
    simpa [applyAll, hh'] using hrest

/-! ## Directives that attributes set -/

def setsDirective (key name : String) : Bool :=
  name == "s-" ++ key || (key == "elif" && name == "s-else-if")

theorem has_swap {α : Type} (m : Entries α) (name key : String) (value : α) :
    Entries.has (m.swap name (name, value)) key = m.has key := by
  induction m with
  | nil => rfl
  | cons e m ih =>
    simp only [Entries.swap, Entries.has, List.map_cons, List.any_cons] at ih ⊢
    rw [ih]
    by_cases he : e.1 = name
    · simp [he]
    · simp [he]

theorem has_set {α : Type} (m : Entries α) (name key : String) (value : α) :
    Entries.has (m.set name value) key = (m.has key || name == key) := by
  unfold Entries.set
  by_cases hm : m.has name = true
  · rw [if_pos hm, has_swap]
    by_cases hk : name = key
    · simp [← hk, hm]
    · simp [hk]
  · rw [if_neg hm]
    simp [Entries.has]

theorem readDirective_key {name raw key : String} {d : Directive} {s : Span}
    (h : readDirective name raw s = .ok (key, d)) :
    key = if name = "else-if" then "elif" else name := by
  unfold readDirective at h
  split at h <;> simp only [bind_eq_ok, pure_eq_ok, Except.ok.injEq, Prod.mk.injEq] at h <;> grind

theorem stripStart?_eq_some {word cs rest : List Char} :
    stripStart? word cs = some rest ↔ cs = word ++ rest := by
  unfold stripStart?
  split
  · rename_i hp
    obtain ⟨tail, rfl⟩ := List.isPrefixOf_iff_prefix.1 hp
    simp
  · rename_i hp
    simp only [reduceCtorEq, false_iff]
    rintro rfl
    simp at hp

theorem stripStart?_of_other {c d : Char} {word cs rest : List Char} (hcd : c ≠ d)
    (h : stripStart? (c :: word) cs = some rest) (other : List Char) :
    stripStart? (d :: other) cs = none := by
  rw [stripStart?_eq_some] at h
  simp [stripStart?, h, List.isPrefixOf, hcd.symm]

theorem setsDirective_of_none {key name : String}
    (h : stripStart? "s-".toList name.toList = none) : setsDirective key name = false := by
  have hne (d : String) : name ≠ "s-" ++ d := by
    rintro rfl
    rw [String.toList_append, stripStart?_eq_some.2 rfl] at h
    cases h
  have helse : name ≠ "s-else-if" := hne "else-if"
  simp [setsDirective, hne, helse]

theorem setsDirective_of_some {key name : String} {d : List Char} (hkey : key ≠ "else-if")
    (h : stripStart? "s-".toList name.toList = some d) :
    setsDirective key name =
      ((if String.ofList d = "else-if" then "elif" else String.ofList d) == key) := by
  have hname : name = "s-" ++ String.ofList d := by
    rw [← String.toList_inj, stripStart?_eq_some.1 h]
    simp
  have hcancel (t : String) : name = "s-" ++ t ↔ String.ofList d = t := by
    rw [hname, String.append_right_inj]
  have helse : name = "s-else-if" ↔ String.ofList d = "else-if" := hcancel "else-if"
  rw [setsDirective, Bool.eq_iff_iff]
  simp only [Bool.or_eq_true, Bool.and_eq_true, beq_iff_eq, hcancel, helse]
  by_cases hd : String.ofList d = "else-if"
  · simp [hd, hkey.symm, eq_comm]
  · simp [hd]

theorem Head.has_apply {h h' : Head} {name : String} {value : Option String} {s : Span}
    (hok : h.apply name value s = .ok h') {key : String} (hkey : key ≠ "else-if") :
    h'.directives.has key = (h.directives.has key || setsDirective key name) := by
  unfold Head.apply at hok
  split at hok
  case h_1 event hevent =>
    obtain ⟨listener, -, hh⟩ := bind_eq_ok.1 hok
    obtain rfl := Except.ok.inj hh
    have hnone : stripStart? "s-".toList name.toList = none :=
      stripStart?_of_other (by decide) hevent ['-']
    rw [setsDirective_of_none hnone, Bool.or_false]
  case h_2 directive hdirective =>
    obtain ⟨⟨set, d⟩, hread, hh⟩ := bind_eq_ok.1 hok
    obtain rfl := Except.ok.inj hh
    rw [setsDirective_of_some hkey hdirective, ← readDirective_key hread]
    exact has_set ..
  case h_3 _ hnone =>
    obtain ⟨property, -, hh⟩ := bind_eq_ok.1 hok
    obtain rfl := Except.ok.inj hh
    rw [setsDirective_of_none hnone, Bool.or_false]

theorem has_applyAll {attrs : List (String × Option String)} {h h' : Head}
    (hok : applyAll h attrs = some h') {key : String} (hkey : key ≠ "else-if") :
    h'.directives.has key = (h.directives.has key || attrs.any (setsDirective key ·.1)) := by
  induction attrs generalizing h with
  | nil =>
    obtain rfl : h = h' := by simpa [applyAll] using hok
    simp
  | cons a attrs ih =>
    obtain ⟨name, value⟩ := a
    obtain ⟨h1, hfirst, hrest⟩ := Option.bind_eq_some_iff.1 hok
    rw [ih hrest, Head.has_apply (toOption_eq_some.1 hfirst) hkey]
    simp [Bool.or_assoc]

/-! ## Escaped quotes -/

def escaped (cs : List Char) : List Char := replace ['\x22'] "&quot;".toList cs

def unescaped (cs : List Char) : List Char := replace "&quot;".toList ['\x22'] cs

theorem escaped_quote (cs : List Char) :
    escaped ('\x22' :: cs) = "&quot;".toList ++ escaped cs := by
  simp [escaped, replace, replaceFrom]

theorem escaped_cons {c : Char} (hc : c ≠ '\x22') (cs : List Char) :
    escaped (c :: cs) = c :: escaped cs := by
  simp [escaped, replace, replaceFrom, hc.symm]

theorem quote_notMem_escaped (cs : List Char) : '\x22' ∉ escaped cs := by
  induction cs with
  | nil => simp [escaped, replace, replaceFrom]
  | cons c cs ih =>
    by_cases hc : c = '\x22'
    · rw [hc, escaped_quote]
      simpa using ih
    · rw [escaped_cons hc]
      simp [ih, Ne.symm hc]

-- An escape starts with an ampersand, so a word without one does not run into it.
theorem isPrefixOf_escaped (word : List Char) (hword : ∀ c ∈ word, c ≠ '&' ∧ c ≠ '\x22')
    (cs : List Char) : word.isPrefixOf (escaped cs) = word.isPrefixOf cs := by
  induction word generalizing cs with
  | nil => simp
  | cons w word ih =>
    obtain ⟨hw, hword⟩ := List.forall_mem_cons.1 hword
    cases cs with
    | nil => rfl
    | cons c cs =>
      by_cases hc : c = '\x22'
      · rw [hc, escaped_quote]
        simp [List.isPrefixOf, beq_false_of_ne hw.1, beq_false_of_ne hw.2]
      · rw [escaped_cons hc, List.isPrefixOf, List.isPrefixOf, ih hword]

theorem unescaped_entity (cs : List Char) :
    unescaped ("&quot;".toList ++ cs) = '\x22' :: unescaped cs := by
  simp [unescaped, replace, replaceFrom]

theorem unescaped_cons {c : Char} {cs : List Char}
    (hc : "&quot;".toList.isPrefixOf (c :: cs) = false) :
    unescaped (c :: cs) = c :: unescaped cs := by
  simp only [unescaped, replace, replaceFrom, hc]
  rfl

theorem unescaped_escaped (cs : List Char) : unescaped (escaped cs) = unescaped cs := by
  induction hn : cs.length using Nat.strongRecOn generalizing cs with
  | _ n ih =>
    cases cs with
    | nil => rfl
    | cons c cs =>
      have hlen : cs.length < n := by simp [← hn]
      by_cases hc : c = '\x22'
      · rw [hc, escaped_quote, unescaped_entity, unescaped_cons (by simp [List.isPrefixOf]),
          ih _ hlen cs rfl]
      · have hsame : "&quot;".toList.isPrefixOf (c :: escaped cs) =
            "&quot;".toList.isPrefixOf (c :: cs) := by
          have := isPrefixOf_escaped "quot;".toList (forall_of_all (by decide)) cs
          simp only [String.reduceToList, List.isPrefixOf] at this ⊢
          rw [this]
        rw [escaped_cons hc]
        cases hp : "&quot;".toList.isPrefixOf (c :: cs) with
        | false => rw [unescaped_cons (hsame.trans hp), unescaped_cons hp, ih _ hlen cs rfl]
        | true =>
          obtain ⟨rest, hrest⟩ := List.isPrefixOf_iff_prefix.1 hp
          have hparts : '&' = c ∧ "quot;".toList ++ rest = cs := by simpa using hrest
          obtain ⟨rfl, rfl⟩ := hparts
          have hkeep : '&' :: escaped ("quot;".toList ++ rest) =
              "&quot;".toList ++ escaped rest := by
            simp [escaped_cons]
          have hshort : rest.length < n := by simp at hlen; omega
          rw [hkeep, ← hrest, unescaped_entity, unescaped_entity, ih _ hshort rest rfl]

/-! ## Attributes -/

def markText : String × Option (List Char) → List Char
  | (name, none) => name.toList
  | (name, some cs) => name.toList ++ '=' :: '\x22' :: (escaped cs ++ ['\x22'])

def markMeaning : String × Option (List Char) → String × Option String
  | (name, value) => (name, value.map fun cs => String.ofList (unescaped cs))

def marksText (marks : List (String × Option (List Char))) : List Char :=
  marks.flatMap fun m => ' ' :: markText m

theorem isAttrName_head {name : String} (h : isAttrName name) :
    ∃ c cs, name.toList = c :: cs ∧ isAttrNameChar c = true := by
  simp only [isAttrName, Bool.and_eq_true, Bool.not_eq_true', List.all_eq_true] at h
  cases hname : name.toList with
  | nil => simp [String.toList_eq_nil_iff.1 hname] at h
  | cons c cs => exact ⟨c, cs, rfl, h.2 c (by simp [hname])⟩

theorem isAttrName_all {name : String} (h : isAttrName name) :
    ∀ c ∈ name.toList, isAttrNameChar c = true := by
  simp only [isAttrName, Bool.and_eq_true, List.all_eq_true] at h
  exact h.2

theorem isAttrNameChar_ne {c : Char} (h : isAttrNameChar c = true) :
    isBlank c = false ∧ c ≠ '>' ∧ c ≠ '/' ∧ c ≠ '=' := by
  simp only [isAttrNameChar, Bool.and_eq_true, Bool.not_eq_true', bne_iff_ne] at h
  grind

/-- What stands behind an attribute: a character that no name goes on with, and no equals sign
behind the blanks. -/
def Behind (cs : List Char) : Prop :=
  (∀ c ∈ cs.head?, isAttrNameChar c = false) ∧
    ∀ pos, ((Cursor.mk pos cs).skipWhile isBlank).startsWith "=" = false

theorem behind_greater (rest : List Char) : Behind ('>' :: rest) := by
  refine ⟨by simp; decide, fun pos => ?_⟩
  rw [Cursor.skipWhile_stop _ (by simp; decide)]
  simp [Cursor.startsWith, List.isPrefixOf]

theorem skipWhile_blank_mark {m : String × Option (List Char)} (hm : isAttrName m.1) (pos : Nat)
    (rest : List Char) :
    (Cursor.mk pos (' ' :: (markText m ++ rest))).skipWhile isBlank =
      ⟨pos + 1, markText m ++ rest⟩ := by
  obtain ⟨c, cs, hname, hc⟩ := isAttrName_head hm
  refine Cursor.skipWhile_append pos [' '] (forall_of_all (by decide)) ?_
  obtain ⟨name, value⟩ := m
  cases value <;> simp_all [markText, (isAttrNameChar_ne hc).1]

theorem behind_mark {m : String × Option (List Char)} (hm : isAttrName m.1) (rest : List Char) :
    Behind (' ' :: (markText m ++ rest)) := by
  refine ⟨by simp; decide, fun pos => ?_⟩
  rw [skipWhile_blank_mark hm]
  obtain ⟨c, cs, hname, hc⟩ := isAttrName_head hm
  obtain ⟨name, value⟩ := m
  have hne : ('=' == c) = false := beq_false_of_ne (isAttrNameChar_ne hc).2.2.2.symm
  cases value <;> simp_all [markText, Cursor.startsWith, List.isPrefixOf]

theorem behind_marks {marks : List (String × Option (List Char))}
    (hm : ∀ m ∈ marks, isAttrName m.1) (rest : List Char) :
    Behind (marksText marks ++ '>' :: rest) := by
  cases marks with
  | nil => exact behind_greater rest
  | cons m marks =>
    have := behind_mark (hm m List.mem_cons_self) (marksText marks ++ '>' :: rest)
    simpa [marksText] using this

def quoted (cs : List Char) : List Char := '\x22' :: (escaped cs ++ ['\x22'])

theorem readAttrValue_quoted (pos : Nat) (cs rest : List Char) :
    readAttrValue ⟨pos, quoted cs ++ rest⟩ =
      (String.ofList (unescaped cs), ⟨pos + byteLength (quoted cs), rest⟩) := by
  have hvalue : ((escaped cs ++ ['\x22']) ++ rest).takeWhile (· != '\x22') = escaped cs := by
    rw [List.append_assoc]
    refine takeWhile_append_stop (fun c hc => ?_) (by simp)
    exact bne_iff_ne.2 fun h => quote_notMem_escaped cs (h ▸ hc)
  have hlen : (escaped cs).length + 2 = (quoted cs).length := by simp [quoted]
  have hread : readValue ⟨pos, quoted cs ++ rest⟩ =
      (escaped cs, ⟨pos + byteLength (quoted cs), rest⟩) := by
    rw [← Cursor.advance_append, ← hlen]
    simp only [readValue, quoted, List.cons_append, hvalue]
    rfl
  have hquote : (Cursor.mk pos (quoted cs ++ rest)).rest.head?.any isQuote = true := rfl
  simp only [readAttrValue, hread, hquote, if_true]
  exact congrArg (fun value => (String.ofList value, _)) (unescaped_escaped cs)

def markStop (m : String × Option (List Char)) (c : Cursor) : Cursor :=
  if m.2.isNone then c.skipWhile isBlank else c

theorem skipWhile_markStop (m : String × Option (List Char)) (c : Cursor) :
    (markStop m c).skipWhile isBlank = c.skipWhile isBlank := by
  rw [markStop]
  split
  · exact Cursor.skipWhile_skipWhile isBlank c
  · rfl

theorem readAttr_markText {m : String × Option (List Char)} (hm : isAttrName m.1) (pos : Nat)
    {rest : List Char} (hrest : Behind rest) :
    readAttr ⟨pos, markText m ++ rest⟩ =
      ((markMeaning m).1, (markMeaning m).2, markStop m ⟨pos + byteLength (markText m), rest⟩) := by
  obtain ⟨name, value⟩ := m
  cases value with
  | none =>
    have hname : (name.toList ++ rest).takeWhile isAttrNameChar = name.toList :=
      takeWhile_append_stop (isAttrName_all hm) hrest.1
    have hequals := hrest.2 (pos + byteLength name.toList)
    simp [readAttr, markText, markMeaning, markStop, hname, Cursor.advance_append, hequals]
  | some cs =>
    have htext : markText (name, some cs) ++ rest = name.toList ++ '=' :: (quoted cs ++ rest) := by
      simp [markText, quoted]
    have hname : (name.toList ++ '=' :: (quoted cs ++ rest)).takeWhile isAttrNameChar =
        name.toList :=
      takeWhile_append_stop (isAttrName_all hm) (by simp; decide)
    have hequals (pos : Nat) :
        (Cursor.mk pos ('=' :: (quoted cs ++ rest))).skipWhile isBlank =
          ⟨pos, '=' :: (quoted cs ++ rest)⟩ :=
      Cursor.skipWhile_stop pos (by simp; decide)
    have hvalue (pos : Nat) :
        ((Cursor.mk pos ('=' :: (quoted cs ++ rest))).advance 1).skipWhile isBlank =
          ⟨pos + 1, quoted cs ++ rest⟩ :=
      Cursor.skipWhile_stop (pos + 1) (by simp [quoted]; decide)
    have hstarts (pos : Nat) :
        (Cursor.mk pos ('=' :: (quoted cs ++ rest))).startsWith "=" = true := by
      simp [Cursor.startsWith]
    have hstop : pos + byteLength (markText (name, some cs)) =
        pos + byteLength name.toList + 1 + byteLength (quoted cs) := by
      have : '='.utf8Size = 1 := rfl
      simp only [markText, quoted, byteLength_append, byteLength_cons, byteLength_nil, this]
      omega
    simp only [readAttr, htext, hname, Cursor.advance_append, hequals, hstarts, hvalue,
      readAttrValue_quoted, hstop, markMeaning, if_true, String.ofList_toList, Option.map_some]
    rfl

theorem readAttrs_skipWhile (n : Nat) (h : Head) (c : Cursor) :
    readAttrs (n + 1) h (c.skipWhile isBlank) = readAttrs (n + 1) h c := by
  simp only [readAttrs, Cursor.skipWhile_skipWhile]

/-- One attribute of a tag: the element takes it, or reading ends with an error. -/
theorem readAttrs_markText {m : String × Option (List Char)} (hm : isAttrName m.1) (h : Head)
    (n pos : Nat) {rest : List Char} (hrest : Behind rest) :
    readAttrs (n + 1) h ⟨pos, markText m ++ rest⟩ =
      h.apply (markMeaning m).1 (markMeaning m).2
        ((markStop m ⟨pos + byteLength (markText m), rest⟩).spanFrom pos) >>= fun h' =>
        readAttrs n h' (markStop m ⟨pos + byteLength (markText m), rest⟩) := by
  obtain ⟨c, cs, hname, hc⟩ := isAttrName_head hm
  obtain ⟨tail, htail⟩ : ∃ tail, markText m ++ rest = c :: tail := by
    obtain ⟨name, value⟩ := m
    cases value <;> simp_all [markText]
  have hne := isAttrNameChar_ne hc
  have hskip : (Cursor.mk pos (markText m ++ rest)).skipWhile isBlank = ⟨pos, markText m ++ rest⟩ :=
    Cursor.skipWhile_stop pos (by simp [htail, hne.1])
  have hends : (Cursor.mk pos (markText m ++ rest)).atEnd = false ∧
      (Cursor.mk pos (markText m ++ rest)).startsWith ">" = false ∧
      (Cursor.mk pos (markText m ++ rest)).startsWith "/>" = false := by
    rw [htail]
    simp [Cursor.atEnd, Cursor.startsWith, List.isPrefixOf, beq_false_of_ne hne.2.1.symm,
      beq_false_of_ne hne.2.2.1.symm]
  have hsome : ((markText m ++ rest).takeWhile isAttrNameChar).isEmpty = false := by
    simp [htail, hc]
  rw [readAttrs, hskip]
  simp only [hends.1, hends.2.1, hends.2.2, Bool.or_self, hsome, readAttr_markText hm pos hrest,
    Bool.false_eq_true, if_false]

theorem readAttrs_mark {m : String × Option (List Char)} (hm : isAttrName m.1) (h : Head)
    (n pos : Nat) {rest : List Char} (hrest : Behind rest) :
    ∃ span, readAttrs (n + 2) h ⟨pos, ' ' :: (markText m ++ rest)⟩ =
      h.apply (markMeaning m).1 (markMeaning m).2 span >>= fun h' =>
        readAttrs (n + 1) h' ⟨pos + byteLength (' ' :: markText m), rest⟩ := by
  have hpos : pos + 1 + byteLength (markText m) = pos + byteLength (' ' :: markText m) := by
    have : ' '.utf8Size = 1 := rfl
    rw [byteLength_cons, this, Nat.add_assoc]
  rw [← readAttrs_skipWhile, skipWhile_blank_mark hm, readAttrs_markText hm h _ _ hrest, hpos]
  refine ⟨_, bind_congr fun h' => ?_⟩
  rw [← readAttrs_skipWhile, skipWhile_markStop, readAttrs_skipWhile]

theorem readAttrs_marksText {marks : List (String × Option (List Char))}
    (hm : ∀ m ∈ marks, isAttrName m.1) {h h' : Head}
    (hok : applyAll h (marks.map markMeaning) = some h') {n : Nat} (hn : marks.length < n)
    (pos : Nat) (rest : List Char) :
    readAttrs n h ⟨pos, marksText marks ++ '>' :: rest⟩ =
      .ok (h', ⟨pos + byteLength (marksText marks), '>' :: rest⟩) := by
  induction marks generalizing h n pos with
  | nil =>
    obtain ⟨n, rfl⟩ : ∃ k, n = k + 1 := ⟨n - 1, by simp at hn; omega⟩
    obtain rfl : h = h' := by simpa [applyAll] using hok
    have hskip : (Cursor.mk pos ('>' :: rest)).skipWhile isBlank = ⟨pos, '>' :: rest⟩ :=
      Cursor.skipWhile_stop pos (by simp; decide)
    simp [marksText, readAttrs, hskip, Cursor.atEnd, Cursor.startsWith]
  | cons m marks ih =>
    obtain ⟨n, rfl⟩ : ∃ k, n = k + 2 := ⟨n - 2, by simp at hn; omega⟩
    obtain ⟨hfirst, hm⟩ := List.forall_mem_cons.1 hm
    obtain ⟨h1, happly, hok⟩ := Option.bind_eq_some_iff.1 hok
    have htext : marksText (m :: marks) ++ '>' :: rest =
        ' ' :: (markText m ++ (marksText marks ++ '>' :: rest)) := by
      simp [marksText]
    have hbytes : byteLength (marksText (m :: marks)) =
        byteLength (' ' :: markText m) + byteLength (marksText marks) := by
      simp [marksText, Nat.add_assoc]
    obtain ⟨span, hread⟩ := readAttrs_mark hfirst h n pos (behind_marks hm rest)
    have hone := toOption_eq_some.1
      ((h.apply_span (markMeaning m).1 (markMeaning m).2 span ⟨0, 0⟩).trans happly)
    rw [htext, hread, hone, ok_bind, ih hm hok (by simp at hn; omega), hbytes, Nat.add_assoc]

theorem readAttrs_refused {marks : List (String × Option (List Char))}
    (hm : ∀ m ∈ marks, isAttrName m.1) {h : Head} (hnone : applyAll h (marks.map markMeaning) = none)
    {n : Nat} (hn : marks.length < n) (pos : Nat) (rest : List Char) :
    (readAttrs n h ⟨pos, marksText marks ++ '>' :: rest⟩).toOption = none := by
  induction marks generalizing h n pos with
  | nil => cases hnone
  | cons m marks ih =>
    obtain ⟨n, rfl⟩ : ∃ k, n = k + 2 := ⟨n - 2, by simp at hn; omega⟩
    obtain ⟨hfirst, hm⟩ := List.forall_mem_cons.1 hm
    obtain ⟨span, hread⟩ := readAttrs_mark hfirst h n pos (behind_marks hm rest)
    have htext : marksText (m :: marks) ++ '>' :: rest =
        ' ' :: (markText m ++ (marksText marks ++ '>' :: rest)) := by
      simp [marksText]
    rw [htext, hread, toOption_bind, h.apply_span _ _ span ⟨0, 0⟩, Option.bind_eq_none_iff]
    intro h' happly
    have hrest : applyAll h' (marks.map markMeaning) = none :=
      Option.bind_eq_none_iff.1 hnone h' happly
    exact ih hm hrest (by simp at hn; omega) _

/-! ## Tags -/

theorem writeAttr_toList (name value tag : String) :
    (writeAttr name value tag).toList = markText (name, keptValue? name value tag) := by
  unfold writeAttr keptValue?
  split
  · rfl
  · by_cases hbraces : ['{', '{'].isPrefixOf value.toList = true
    · simp only [hbraces, if_true, markText, escaped]
      simp
    · simp only [hbraces, markText, escaped]
      simp

theorem scopeMark_toList (o : WriteOptions) :
    o.scopeMark.toList = marksText (o.scopeName?.toList.map fun name => (name, none)) := by
  unfold WriteOptions.scopeMark WriteOptions.scopeName?
  cases o.scopeId.map bareScope with
  | none => rfl
  | some id =>
    by_cases hid : id.isEmpty
    · simp [hid, marksText]
    · cases o.dialect <;> simp [hid, marksText, markText]

theorem writeStartTag_toList (o : WriteOptions) (h : Markup.Head) :
    (writeStartTag o h).toList = '<' :: (h.tag.toList ++ (marksText (h.kept o) ++ ['>'])) := by
  simp [writeStartTag, scopeMark_toList, Head.kept, marksText, String.toList_join,
    List.flatMap_map, writeAttr_toList]

theorem isAttrName_kept {o : WriteOptions} {h : Markup.Head} (ho : o.isRegular)
    (hh : h.isRegular) : ∀ m ∈ h.kept o, isAttrName m.1 := by
  intro m hm
  simp only [Markup.Head.isRegular, Bool.and_eq_true, List.all_eq_true] at hh
  rcases List.mem_append.1 hm with hm | hm
  · obtain ⟨⟨name, value⟩, hmem, rfl⟩ := List.mem_map.1 hm
    exact hh.2 _ hmem
  · obtain ⟨name, hmem, rfl⟩ := List.mem_map.1 hm
    have hname : o.scopeName? = some name := Option.mem_toList.1 hmem
    simpa [WriteOptions.isRegular, hname] using ho

theorem isTagChar_ne {c : Char} (h : isTagChar c = true) :
    isBlank c = false ∧ c ≠ '>' := by
  simp only [isTagChar, isLetterOrDigit, Bool.or_eq_true, isLetter_iff, isDigit_iff, beq_iff_eq,
    ← Char.toNat_inj] at h
  simp at h
  refine ⟨isBlank_of_visible (by omega), ?_⟩
  rintro rfl
  simp at h

theorem isTagName_head {tag : String} (h : isTagName tag) :
    ∃ c cs, tag.toList = c :: cs ∧ isLetter c = true := by
  simp only [isTagName, Bool.and_eq_true] at h
  cases htag : tag.toList with
  | nil => simp [htag] at h
  | cons c cs => exact ⟨c, cs, rfl, by simpa [htag] using h.1⟩

theorem isTagName_all {tag : String} (h : isTagName tag) :
    ∀ c ∈ tag.toList, isTagChar c = true := by
  simp only [isTagName, Bool.and_eq_true, List.all_eq_true] at h
  exact h.2

theorem length_le_marksText (marks : List (String × Option (List Char))) :
    marks.length ≤ (marksText marks).length := by
  induction marks with
  | nil => simp
  | cons m marks ih =>
    simp only [marksText, List.flatMap_cons, List.length_append, List.length_cons] at ih ⊢
    omega

theorem readStartTag_marks {o : WriteOptions} {head : Markup.Head} (hr : head.isRegular) (pos : Nat)
    (rest : List Char) :
    ∃ n, (head.kept o).length < n ∧
      readStartTag ⟨pos, (writeStartTag o head).toList ++ rest⟩ = (do
        let (h, last) ← readAttrs n { tag := head.tag }
          ⟨pos + byteLength ('<' :: head.tag.toList), marksText (head.kept o) ++ '>' :: rest⟩
        let stop := last.skipPast ">"
        let raw := ((writeStartTag o head).toList ++ rest).take
          (((writeStartTag o head).toList ++ rest).length - stop.rest.length)
        return ({ h with raw := some (String.ofList raw) }, last.startsWith "/>", stop)) := by
  have htag : isTagName head.tag := by
    simp only [Markup.Head.isRegular, Bool.and_eq_true] at hr
    exact hr.1
  have htext : (writeStartTag o head).toList ++ rest =
      '<' :: (head.tag.toList ++ (marksText (head.kept o) ++ '>' :: rest)) := by
    simp [writeStartTag_toList]
  have hname : (head.tag.toList ++ (marksText (head.kept o) ++ '>' :: rest)).takeWhile isTagChar =
      head.tag.toList := by
    refine takeWhile_append_stop (isTagName_all htag) ?_
    cases head.kept o <;> simp [marksText] <;> decide
  have hinside (cs : List Char) : (Cursor.mk pos ('<' :: (head.tag.toList ++ cs))).advance
      (head.tag.toList.length + 1) = ⟨pos + byteLength ('<' :: head.tag.toList), cs⟩ :=
    Cursor.advance_append pos ('<' :: head.tag.toList) cs
  refine ⟨(marksText (head.kept o) ++ '>' :: rest).length + 1, ?_, ?_⟩
  · have := length_le_marksText (head.kept o)
    simp only [List.length_append]
    omega
  · rw [htext]
    simp only [readStartTag, List.drop_one, List.tail_cons, hname, hinside, String.ofList_toList]

theorem readStartTag_written {o : WriteOptions} {head : Markup.Head} {h : Head} (ho : o.isRegular)
    (hr : head.isRegular) (himage : head.image? o = some h) (pos : Nat) (rest : List Char) :
    readStartTag ⟨pos, (writeStartTag o head).toList ++ rest⟩ =
      .ok (h, false, ⟨pos + byteLength (writeStartTag o head).toList, rest⟩) := by
  obtain ⟨h1, happly, rfl⟩ := Option.map_eq_some_iff.1 himage
  obtain ⟨n, hfuel, hread⟩ := readStartTag_marks (o := o) hr pos rest
  have hraw : ((writeStartTag o head).toList ++ rest).take
      (((writeStartTag o head).toList ++ rest).length - rest.length) =
      (writeStartTag o head).toList := by
    simp
  have hbytes :
      pos + byteLength ('<' :: head.tag.toList) + byteLength (marksText (head.kept o)) + 1 =
      pos + byteLength (writeStartTag o head).toList := by
    have : '>'.utf8Size = 1 := rfl
    simp only [writeStartTag_toList, byteLength_cons, byteLength_append, byteLength_nil, this]
    omega
  have hopen (pos : Nat) : (Cursor.mk pos ('>' :: rest)).startsWith "/>" = false := by
    simp [Cursor.startsWith, List.isPrefixOf]
  rw [hread, readAttrs_marksText (isAttrName_kept ho hr) happly hfuel]
  simp only [ok_bind, Cursor.skipPast_greater, hraw, hbytes, hopen, String.ofList_toList, pure_eq_ok]

/-- The end tag of `closing` is read to its end, and it closes an element of the same name. -/
theorem readEndTag_closing {closing : String} (hclosing : isTagName closing) (tag : String)
    (start pos : Nat) (rest : List Char) :
    ∃ error, readEndTag tag start ⟨pos, ("</" ++ closing ++ ">").toList ++ rest⟩ =
      if sameLetters closing tag then
        .ok ⟨pos + byteLength ("</" ++ closing ++ ">").toList, rest⟩
      else .error error := by
  have htext : ("</" ++ closing ++ ">").toList ++ rest =
      '<' :: '/' :: (closing.toList ++ '>' :: rest) := by
    simp
  have hfound : endTag? ('<' :: '/' :: (closing.toList ++ '>' :: rest)) = some closing := by
    have hname : (closing.toList ++ '>' :: rest).takeWhile (fun c => !isBlank c && c != '>') =
        closing.toList := by
      refine takeWhile_append_stop (fun c hc => ?_) (by simp)
      have hne := isTagChar_ne (isTagName_all hclosing c hc)
      simp [hne]
    simp [endTag?, hname]
  have hbehind : (Cursor.mk pos ('<' :: '/' :: (closing.toList ++ '>' :: rest))).advance
      (closing.length + 2) = ⟨pos + byteLength ('<' :: '/' :: closing.toList), '>' :: rest⟩ := by
    rw [← String.length_toList]
    exact Cursor.advance_append pos ('<' :: '/' :: closing.toList) ('>' :: rest)
  have hbytes : pos + byteLength ('<' :: '/' :: closing.toList) + 1 =
      pos + byteLength ("</" ++ closing ++ ">").toList := by
    have : '>'.utf8Size = 1 := rfl
    simp [this]
    omega
  rw [htext]
  simp only [readEndTag, hfound, hbehind, Cursor.skipPast_greater, hbytes]
  exact ⟨_, rfl⟩

theorem readEndTag_written {tag : String} (htag : isTagName tag) (start pos : Nat)
    (rest : List Char) :
    readEndTag tag start ⟨pos, ("</" ++ tag ++ ">").toList ++ rest⟩ =
      .ok ⟨pos + byteLength ("</" ++ tag ++ ">").toList, rest⟩ := by
  obtain ⟨error, hread⟩ := readEndTag_closing htag tag start pos rest
  rw [hread, sameLetters, beq_self_eq_true, if_pos rfl]

/-! ## Texts -/

theorem textRun_cons {inBraces : Bool} {c : Char} {cs : List Char}
    (hopen : ¬(c = '{' ∧ cs.head? = some '{')) (hclose : ¬(c = '}' ∧ cs.head? = some '}')) :
    textRun inBraces (c :: cs) =
      if !inBraces && atMarkup (c :: cs) then [] else c :: textRun inBraces cs := by
  rw [textRun]
  · rintro cs' rfl rfl
    exact hopen ⟨rfl, rfl⟩
  · rintro cs' rfl rfl
    exact hclose ⟨rfl, rfl⟩

theorem textRun_idle {inBraces : Bool} {c : Char} (hc : c = if inBraces then '{' else '}')
    (cs : List Char) : textRun inBraces (c :: cs) = c :: textRun inBraces cs := by
  induction cs with
  | nil => cases inBraces <;> subst hc <;> rfl
  | cons d cs ih =>
    by_cases hd : d = c
    · rw [hd, ih]
      cases inBraces <;> subst hc <;> rfl
    · have hmarkup : atMarkup (c :: d :: cs) = false := by
        cases inBraces <;> subst hc <;> rfl
      rw [textRun_cons, hmarkup, Bool.and_false]
      · rfl
      · cases inBraces <;> subst hc <;> simp_all
      · cases inBraces <;> subst hc <;> simp_all

def Opens (rest : List Char) : Prop := rest = [] ∨ atMarkup rest = true

theorem Opens.head {rest : List Char} (h : Opens rest) : ∀ c ∈ rest.head?, c = '<' := by
  rcases h with rfl | h
  · simp
  · unfold atMarkup at h
    split at h
    · simp [eq_comm]
    · cases h

theorem atMarkup_append {c : Char} {cs rest : List Char} (hrest : Opens rest) :
    atMarkup (c :: cs ++ rest) = atMarkup (c :: cs) := by
  cases cs with
  | nil =>
    cases rest with
    | nil => rfl
    | cons d rest =>
      obtain rfl := hrest.head d rfl
      by_cases hc : c = '<'
      · rw [hc]
        rfl
      · simp [atMarkup, hc]
  | cons d cs =>
    by_cases hc : c = '<'
    · rw [hc]
      rfl
    · simp [atMarkup, hc]

theorem textRun_calm {cs : List Char} {inBraces : Bool} (hcs : isCalm inBraces cs = true)
    {rest : List Char} (hrest : Opens rest) : textRun inBraces (cs ++ rest) = cs := by
  fun_induction isCalm inBraces cs with
  | case1 cs ih => simpa [textRun] using ih hcs
  | case2 cs ih => simpa [textRun] using ih hcs
  | case3 inBraces c cs hopen hclose ih =>
    simp only [Bool.and_eq_true, Bool.or_eq_true, Bool.not_eq_true'] at hcs
    -- No pair of braces has one of them in `cs` and the other in `rest`.
    have hhead (d : Char) (hd : d ≠ '<') : (cs ++ rest).head? = some d → cs.head? = some d := by
      cases cs with
      | nil => exact fun h => absurd (hrest.head d h) hd
      | cons _ _ => exact id
    by_cases hidle : c = if inBraces then '{' else '}'
    · rw [List.cons_append, textRun_idle hidle, ih hcs.2]
    · have hmarkup : (!inBraces && atMarkup (c :: cs ++ rest)) = false := by
        rw [atMarkup_append hrest]
        rcases hcs.1 with h | h <;> simp [h]
      rw [List.cons_append, textRun_cons, ← List.cons_append, hmarkup, ih hcs.2]
      · rfl
      · rintro ⟨rfl, h⟩
        obtain ⟨cs', rfl⟩ := List.head?_eq_some_iff.1 (hhead _ (by decide) h)
        cases inBraces with
        | false => exact hopen cs' rfl rfl rfl
        | true => exact hidle rfl
      · rintro ⟨rfl, h⟩
        obtain ⟨cs', rfl⟩ := List.head?_eq_some_iff.1 (hhead _ (by decide) h)
        cases inBraces with
        | false => exact hidle rfl
        | true => exact hclose cs' rfl rfl rfl
  | case4 inBraces =>
    obtain rfl : inBraces = false := by simpa using hcs
    rcases hrest with rfl | hrest
    · rfl
    · cases rest with
      | nil => rfl
      | cons c rest =>
        obtain rfl : c = '<' := Opens.head (.inr hrest) c rfl
        rw [List.nil_append, textRun_cons (by simp) (by simp), hrest]
        rfl

end VueToSan.San
