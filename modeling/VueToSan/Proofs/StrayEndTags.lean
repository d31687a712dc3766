import VueToSan.Proofs.FoldedElses
import VueToSan.Proofs.MarkupRoundTrip

/-!
# End tags that close nothing

San reads a row of nodes up to an end tag, and the element that holds the row checks the tag. No
element holds the outermost row, so an end tag there ends the reading without a word: what stands in
front of it is read as if it stood alone, and nothing that stands behind it matters.
-/

namespace VueToSan

open VueToSan.Text VueToSan.Markup VueToSan.San

/-! ## A cursor in front of some text

`tail` and `t` are two texts that may follow the same characters. As long as a cursor does not go
into `tail`, it does the same in front of `t`. -/

namespace Cursor

def withTail (tail : List Char) (c : Cursor) : Cursor := ⟨c.pos, c.rest ++ tail⟩

variable {c : Cursor} {tail t : List Char}

theorem advance_withTail {n : Nat} (hn : n ≤ c.rest.length) (t : List Char) :
    (c.withTail t).advance n = (c.advance n).withTail t := by
  simp only [withTail, advance, List.take_append_of_le_length hn,
    List.drop_append_of_le_length hn]

theorem advance_advance (c : Cursor) (m n : Nat) : (c.advance m).advance n = c.advance (m + n) := by
  simp only [advance, List.take_add, byteLength_append, List.drop_drop, Nat.add_assoc]

theorem le_length_of_advance {n : Nat} (hne : tail ≠ [])
    (h : tail.length ≤ ((c.withTail tail).advance n).rest.length) : n ≤ c.rest.length := by
  have hpos := List.length_pos_iff.2 hne
  simp only [withTail, advance, List.length_drop, List.length_append] at h
  omega

theorem exists_withTail {d e : Cursor} (h : d.Reaches (e.withTail tail)) :
    ∃ f : Cursor, d = f.withTail tail := by
  obtain ⟨cs, hcs, -⟩ := h
  exact ⟨⟨d.pos, cs ++ e.rest⟩, by rw [withTail, List.append_assoc]; exact hcs ▸ rfl⟩

theorem takeWhile_opens {p : Char → Bool} (hp : p '<' = false) (ht : Opens t) (cs : List Char) :
    (cs ++ t).takeWhile p = cs.takeWhile p := by
  have hnil : t.takeWhile p = [] := by
    cases t with
    | nil => rfl
    | cons d ds =>
      obtain rfl := ht.head d rfl
      rw [List.takeWhile_cons, hp]
      rfl
  rw [List.takeWhile_append, hnil, List.append_nil]
  split
  · rename_i hall
    exact ((List.takeWhile_prefix p).eq_of_length hall).symm
  · rfl

theorem takeWhile_tail {p : Char → Bool} {cs : List Char} (hne : tail ≠ []) (htail : Opens tail)
    (ht : Opens t) (h : ((cs ++ tail).takeWhile p).length ≤ cs.length) :
    (cs ++ t).takeWhile p = cs.takeWhile p := by
  by_cases hp : p '<' = true
  · obtain ⟨d, ds, rfl⟩ := List.exists_cons_of_ne_nil hne
    obtain rfl := htail.head d rfl
    rw [List.takeWhile_append] at h ⊢
    split
    · rename_i hall
      simp only [hall, if_true, List.takeWhile_cons, hp, List.length_append, List.length_cons] at h
      omega
    · rfl
  · exact takeWhile_opens (Bool.eq_false_iff.2 hp) ht cs

theorem skipWhile_withTail {p : Char → Bool} (hp : p '<' = false) (ht : Opens t) (c : Cursor) :
    (c.withTail t).skipWhile p = (c.skipWhile p).withTail t := by
  have hrun : (c.withTail t).rest.takeWhile p = c.rest.takeWhile p := takeWhile_opens hp ht c.rest
  rw [skipWhile, hrun, advance_withTail (List.takeWhile_prefix p).length_le]
  rfl

theorem isPrefixOf_opens {word : List Char} (hword : '<' ∉ word) (ht : Opens t) (cs : List Char) :
    word.isPrefixOf (cs ++ t) = word.isPrefixOf cs := by
  induction word generalizing cs with
  | nil => simp only [List.isPrefixOf]
  | cons d ds ih =>
    obtain ⟨hd, hds⟩ := not_or.1 (mt List.mem_cons.2 hword)
    cases cs with
    | nil =>
      cases t with
      | nil => rfl
      | cons x xs =>
        obtain rfl := ht.head x rfl
        simp [List.isPrefixOf, Ne.symm hd]
    | cons x xs => simp only [List.cons_append, List.isPrefixOf, ih hds]

theorem startsWith_withTail {word : String} (hword : '<' ∉ word.toList) (ht : Opens t)
    (c : Cursor) : (c.withTail t).startsWith word = c.startsWith word :=
  isPrefixOf_opens hword ht c.rest

theorem textBefore_greater (c : Cursor) : c.textBefore ">" = c.rest.takeWhile (· != '>') := by
  obtain ⟨pos, cs⟩ := c
  have hbreak : ((breakAt? ['>'] cs).map (·.1)).getD cs = cs.takeWhile (· != '>') := by
    induction cs with
    | nil => rfl
    | cons d ds ih =>
      by_cases hd : d = '>'
      · subst hd
        rfl
      · have hprefix : ['>'].isPrefixOf (d :: ds) = false := by
          simp [List.isPrefixOf, Ne.symm hd]
        rw [List.takeWhile_cons, if_pos (by simpa using hd), ← ih, breakAt?, hprefix]
        cases breakAt? ['>'] ds <;> rfl
  exact hbreak

theorem skipPast_eq (c : Cursor) :
    c.skipPast ">" = c.advance ((c.rest.takeWhile (· != '>')).length + 1) := by
  have hto : c.skipTo ">" = c.skipWhile (· != '>') := by rw [skipTo, textBefore_greater, skipWhile]
  have hword : (c.skipWhile (· != '>')).skipWord ">" = (c.skipWhile (· != '>')).advance 1 := by
    have hhead := head?_skipWhile (· != '>') c
    generalize c.skipWhile (· != '>') = d at hhead
    obtain ⟨pos, cs⟩ := d
    cases cs with
    | nil => rfl
    | cons d ds =>
      obtain rfl : d = '>' := by simpa using hhead d rfl
      rfl
  rw [skipPast, hto, hword, skipWhile, advance_advance]

theorem skipPast_withTail (hne : tail ≠ []) (htail : Opens tail) (ht : Opens t)
    (h : tail.length ≤ ((c.withTail tail).skipPast ">").rest.length) :
    (c.withTail t).skipPast ">" = (c.skipPast ">").withTail t := by
  rw [skipPast_eq] at h
  have hle := le_length_of_advance hne h
  have hrun (t : List Char) (ht : Opens t) :
      (c.withTail t).rest.takeWhile (· != '>') = c.rest.takeWhile (· != '>') :=
    takeWhile_tail hne htail ht (Nat.le_of_lt hle)
  rw [hrun tail htail] at hle
  rw [skipPast_eq, skipPast_eq, hrun t ht, advance_withTail hle]

end Cursor

namespace San

variable {c : Cursor} {tail t : List Char}

/-! ## Tags -/

theorem readValue_quoted {q : Char} (hq : isQuote q = true) (pos : Nat) (cs : List Char) :
    readValue ⟨pos, q :: cs⟩ = (cs.takeWhile (· != q),
      (Cursor.mk pos (q :: cs)).advance ((cs.takeWhile (· != q)).length + 2)) := by
  simp only [readValue, hq, if_true]

theorem readValue_plain {q : Char} (hq : isQuote q = false) (pos : Nat) (cs : List Char) :
    readValue ⟨pos, q :: cs⟩ = ((q :: cs).takeWhile (fun d => !isBlank d && d != '>'),
      (Cursor.mk pos (q :: cs)).advance
        ((q :: cs).takeWhile fun d => !isBlank d && d != '>').length) := by
  simp only [readValue, hq, Bool.false_eq_true, if_false]

def readGiven (c : Cursor) : Option String × Cursor :=
  if c.startsWith "=" then
    let (value, stop) := readAttrValue ((c.advance 1).skipWhile isBlank)
    (some value, stop)
  else (none, c)

theorem readAttr_eq (c : Cursor) :
    readAttr c = (String.ofList (c.rest.takeWhile isAttrNameChar),
      readGiven ((c.advance (c.rest.takeWhile isAttrNameChar).length).skipWhile isBlank)) := by
  unfold readAttr readGiven
  dsimp only
  split <;> rfl

theorem tagEnds_withTail (hc : c.rest ≠ []) (ht : Opens t) :
    ((c.withTail t).atEnd || (c.withTail t).startsWith ">" || (c.withTail t).startsWith "/>") =
      (c.startsWith ">" || c.startsWith "/>") := by
  have hatEnd : (c.withTail t).atEnd = false :=
    List.isEmpty_eq_false_iff.2 (List.append_ne_nil_of_left_ne_nil hc t)
  rw [hatEnd, Cursor.startsWith_withTail (by decide) ht, Cursor.startsWith_withTail (by decide) ht,
    Bool.false_or]

theorem isEmpty_run_withTail {p : Char → Bool} (hc : c.rest ≠ []) :
    ((c.withTail t).rest.takeWhile p).isEmpty = (c.rest.takeWhile p).isEmpty := by
  obtain ⟨d, ds, hcs⟩ := List.exists_cons_of_ne_nil hc
  cases hd : p d <;> simp [Cursor.withTail, hcs, hd]

theorem length_readAttrs_lt (hne : tail ≠ []) (htail : Opens tail) {n pos : Nat} {h h' : Head}
    {stop : Cursor} (hok : readAttrs (n + 1) h ⟨pos, tail⟩ = .ok (h', stop)) :
    stop.rest.length < tail.length := by
  obtain ⟨d, ds, rfl⟩ := List.exists_cons_of_ne_nil hne
  obtain rfl := htail.head d rfl
  have hskip : (Cursor.mk pos ('<' :: ds)).skipWhile isBlank = ⟨pos, '<' :: ds⟩ :=
    Cursor.skipWhile_stop pos (by simp; decide)
  have hname : ('<' :: ds).takeWhile isAttrNameChar = '<' :: ds.takeWhile isAttrNameChar :=
    List.takeWhile_cons_of_pos (by decide)
  have hopen : ¬((Cursor.mk pos ('<' :: ds)).atEnd || (Cursor.mk pos ('<' :: ds)).startsWith ">" ||
      (Cursor.mk pos ('<' :: ds)).startsWith "/>") = true := by
    simp [Cursor.atEnd, Cursor.startsWith, List.isPrefixOf]
  have hattr : (readAttr ⟨pos, '<' :: ds⟩).2.2.rest.length < ('<' :: ds).length :=
    Nat.lt_of_le_of_lt (readAttr_behind _).length_le
      (Cursor.length_advance_lt hne (by simp [hname]))
  unfold readAttrs at hok
  dsimp only at hok
  rw [hskip, if_neg hopen, hname, if_neg (by simp)] at hok
  obtain ⟨h1, -, hrest⟩ := bind_eq_ok.1 hok
  exact Nat.lt_of_le_of_lt (reaches_readAttrs hrest).length_le hattr

section Tags

variable (hne : tail ≠ []) (htail : Opens tail) (ht : Opens t)
include hne htail ht

theorem readValue_withTail (h : tail.length ≤ (readValue (c.withTail tail)).2.rest.length) :
    c.rest ≠ [] ∧ readValue (c.withTail t) = ((readValue c).1, (readValue c).2.withTail t) := by
  obtain ⟨pos, cs⟩ := c
  cases cs with
  | nil =>
    -- The value would start with the first character of `tail`.
    obtain ⟨d, ds, rfl⟩ := List.exists_cons_of_ne_nil hne
    obtain rfl := htail.head d rfl
    have hvalue := readValue_plain (q := '<') rfl pos ds
    change _ ≤ (readValue ⟨pos, '<' :: ds⟩).2.rest.length at h
    rw [hvalue] at h
    exact absurd (Cursor.le_length_of_advance (c := ⟨pos, []⟩) hne h) (Nat.not_succ_le_zero _)
  | cons q cs =>
    refine ⟨List.cons_ne_nil q cs, ?_⟩
    have hcons (t : List Char) : Cursor.withTail t ⟨pos, q :: cs⟩ = ⟨pos, q :: (cs ++ t)⟩ := rfl
    cases hq : isQuote q with
    | true =>
      rw [hcons, readValue_quoted hq] at h
      have hle := Cursor.le_length_of_advance (c := ⟨pos, q :: cs⟩) hne h
      have hrun (t : List Char) (ht : Opens t) :
          (cs ++ t).takeWhile (· != q) = cs.takeWhile (· != q) :=
        Cursor.takeWhile_tail hne htail ht (Nat.le_of_succ_le (Nat.le_of_succ_le_succ hle))
      rw [hrun tail htail] at hle
      rw [hcons, readValue_quoted hq, readValue_quoted hq, hrun t ht, ← hcons,
        Cursor.advance_withTail hle]
    | false =>
      rw [hcons, readValue_plain hq] at h
      have hle := Cursor.le_length_of_advance (c := ⟨pos, q :: cs⟩) hne h
      have hrun (t : List Char) (ht : Opens t) :
          (q :: cs ++ t).takeWhile (fun d => !isBlank d && d != '>') = _ :=
        Cursor.takeWhile_tail hne htail ht hle
      simp only [List.cons_append] at hrun
      rw [hrun tail htail] at hle
      rw [hcons, readValue_plain hq, readValue_plain hq, hrun t ht, ← hcons,
        Cursor.advance_withTail hle]

theorem readAttrValue_withTail (h : tail.length ≤ (readAttrValue (c.withTail tail)).2.rest.length) :
    readAttrValue (c.withTail t) = ((readAttrValue c).1, (readAttrValue c).2.withTail t) := by
  obtain ⟨hrest, hvalue⟩ := readValue_withTail hne htail ht h
  have hhead : (c.withTail t).rest.head? = c.rest.head? := by
    obtain ⟨q, cs, hcs⟩ := List.exists_cons_of_ne_nil hrest
    simp [Cursor.withTail, hcs]
  rw [readAttrValue, readAttrValue, hvalue, hhead]

theorem readGiven_withTail (h : tail.length ≤ (readGiven (c.withTail tail)).2.rest.length) :
    readGiven (c.withTail t) = ((readGiven c).1, (readGiven c).2.withTail t) := by
  have hequals (t : List Char) (ht : Opens t) : (c.withTail t).startsWith "=" = c.startsWith "=" :=
    Cursor.startsWith_withTail (by decide) ht c
  unfold readGiven at h ⊢
  rw [hequals tail htail] at h
  rw [hequals t ht]
  by_cases hvalue : c.startsWith "=" = true
  · have hlength : 1 ≤ c.rest.length := (List.isPrefixOf_iff_prefix.1 hvalue).length_le
    have hskip (t : List Char) (ht : Opens t) :
        ((c.withTail t).advance 1).skipWhile isBlank =
          ((c.advance 1).skipWhile isBlank).withTail t := by
      rw [Cursor.advance_withTail hlength, Cursor.skipWhile_withTail (by decide) ht]
    rw [if_pos hvalue, hskip tail htail] at h
    rw [if_pos hvalue, if_pos hvalue, hskip t ht, readAttrValue_withTail hne htail ht h]
  · rw [if_neg hvalue, if_neg hvalue]

theorem readAttr_withTail (h : tail.length ≤ (readAttr (c.withTail tail)).2.2.rest.length) :
    readAttr (c.withTail t) = ((readAttr c).1, (readAttr c).2.1, (readAttr c).2.2.withTail t) := by
  -- The name ends in front of `tail`, as the attribute does.
  have hle := Cursor.le_length_of_advance hne
    (Nat.le_trans h (readAttr_behind (c.withTail tail)).length_le)
  have hname (t : List Char) (ht : Opens t) :
      (c.withTail t).rest.takeWhile isAttrNameChar = c.rest.takeWhile isAttrNameChar :=
    Cursor.takeWhile_tail hne htail ht hle
  rw [hname tail htail] at hle
  have hbehind (t : List Char) (ht : Opens t) :
      ((c.withTail t).advance (c.rest.takeWhile isAttrNameChar).length).skipWhile isBlank =
        ((c.advance (c.rest.takeWhile isAttrNameChar).length).skipWhile isBlank).withTail t := by
    rw [Cursor.advance_withTail hle, Cursor.skipWhile_withTail (by decide) ht]
  rw [readAttr_eq, hname tail htail, hbehind tail htail] at h
  rw [readAttr_eq, readAttr_eq, hname t ht, hbehind t ht, readGiven_withTail hne htail ht h]

theorem readAttrs_withTail {n m : Nat} {h h' : Head} {stop : Cursor} (hn : c.rest.length < n)
    (hm : c.rest.length < m) (hok : readAttrs n h (c.withTail tail) = .ok (h', stop))
    (hstop : tail.length ≤ stop.rest.length) :
    ∃ d : Cursor, stop = d.withTail tail ∧
      readAttrs m h (c.withTail t) = .ok (h', d.withTail t) := by
  induction n generalizing m h c with
  | zero => exact absurd hn (Nat.not_lt_zero _)
  | succ n ih =>
    obtain ⟨m, rfl⟩ : ∃ k, m = k + 1 := ⟨m - 1, by omega⟩
    have hskip (t : List Char) (ht : Opens t) (c : Cursor) :
        (c.withTail t).skipWhile isBlank = (c.skipWhile isBlank).withTail t :=
      Cursor.skipWhile_withTail (by decide) ht c
    have hshorter := (c.reaches_skipWhile isBlank).length_le
    have hblank := c.skipWhile_skipWhile isBlank
    rw [← readAttrs_skipWhile, hskip tail htail] at hok
    rw [← readAttrs_skipWhile, hskip t ht]
    generalize c.skipWhile isBlank = d at hok hshorter hblank ⊢
    -- Only behind the last character before `tail` would an attribute be looked for inside of it.
    have hd : d.rest ≠ [] := by
      intro hnil
      have hat : d.withTail tail = ⟨d.pos, tail⟩ := by rw [Cursor.withTail, hnil, List.nil_append]
      rw [hat] at hok
      have := length_readAttrs_lt hne htail hok
      omega
    unfold readAttrs at hok ⊢
    dsimp only at hok ⊢
    rw [hskip tail htail, hblank, tagEnds_withTail hd htail, isEmpty_run_withTail hd] at hok
    rw [hskip t ht, hblank, tagEnds_withTail hd ht, isEmpty_run_withTail hd]
    by_cases hclosed : (d.startsWith ">" || d.startsWith "/>") = true
    · rw [if_pos hclosed] at hok
      rw [if_pos hclosed]
      obtain ⟨rfl, rfl⟩ := Prod.mk.inj (Except.ok.inj hok)
      exact ⟨d, rfl, rfl⟩
    rw [if_neg hclosed] at hok
    rw [if_neg hclosed]
    by_cases hempty : (d.rest.takeWhile isAttrNameChar).isEmpty = true
    · have hlength : 1 ≤ d.rest.length := List.length_pos_iff.2 hd
      have hnext := Cursor.length_advance_lt hd Nat.one_pos
      rw [if_pos hempty, Cursor.advance_withTail hlength] at hok
      rw [if_pos hempty, Cursor.advance_withTail hlength]
      exact ih (by omega) (by omega) hok
    · rw [if_neg hempty] at hok
      rw [if_neg hempty]
      obtain ⟨h1, happly, hrest⟩ := bind_eq_ok.1 hok
      have hkept := Nat.le_trans hstop (reaches_readAttrs hrest).length_le
      have hnext : (readAttr d).2.2.rest.length < d.rest.length :=
        Nat.lt_of_le_of_lt (readAttr_behind d).length_le
          (Cursor.length_advance_lt hd (List.length_pos_iff.2 (by simpa using hempty)))
      rw [readAttr_withTail hne htail htail hkept] at happly hrest
      rw [readAttr_withTail hne htail ht hkept]
      dsimp only at happly hrest ⊢
      have hspan (t : List Char) (x : Cursor) :
          (x.withTail t).spanFrom (d.withTail t).pos = x.spanFrom d.pos := rfl
      rw [hspan] at happly ⊢
      rw [happly]
      exact ih (by omega) (by omega) hrest

theorem readStartTag_withTail (hc : c.rest ≠ []) {head : Head} {selfClosing : Bool}
    {inside : Cursor}
    (hok : readStartTag (c.withTail tail) = .ok (head, selfClosing, inside))
    (hinside : tail.length ≤ inside.rest.length) :
    ∃ d : Cursor, inside = d.withTail tail ∧
      readStartTag (c.withTail t) = .ok (head, selfClosing, d.withTail t) := by
  have hlength := List.length_pos_iff.2 hc
  have hname (t : List Char) (ht : Opens t) :
      ((c.withTail t).rest.drop 1).takeWhile isTagChar = (c.rest.drop 1).takeWhile isTagChar := by
    rw [Cursor.withTail, List.drop_append_of_le_length hlength]
    exact Cursor.takeWhile_opens (by decide) ht _
  have hle : ((c.rest.drop 1).takeWhile isTagChar).length + 1 ≤ c.rest.length := by
    have := (List.takeWhile_prefix isTagChar (l := c.rest.drop 1)).length_le
    rw [List.length_drop] at this
    omega
  unfold readStartTag at hok ⊢
  rw [hname tail htail] at hok
  rw [hname t ht]
  dsimp only at hok ⊢
  rw [Cursor.advance_withTail hle] at hok ⊢
  obtain ⟨⟨h, last⟩, hattrs, hhead⟩ := bind_eq_ok.1 hok
  obtain ⟨rfl, hparts⟩ := Prod.mk.inj (Except.ok.inj hhead)
  obtain ⟨rfl, rfl⟩ := Prod.mk.inj hparts
  have hfuel (t : List Char) (d : Cursor) : d.rest.length < (d.withTail t).rest.length + 1 := by
    simp only [Cursor.withTail, List.length_append]
    omega
  have hlast := Nat.le_trans hinside (last.reaches_skipPast ">").length_le
  obtain ⟨l, rfl, hread⟩ :=
    readAttrs_withTail hne htail ht (hfuel tail _) (hfuel t _) hattrs hlast
  -- The text of the tag lies between two cursors in front of the tail, so the tail does not matter.
  have hraw (t : List Char) (d : Cursor) : (c.withTail t).rest.take
      ((c.withTail t).rest.length - (d.withTail t).rest.length) =
        c.rest.take (c.rest.length - d.rest.length) := by
    simp only [Cursor.withTail, List.length_append, Nat.add_sub_add_right]
    exact List.take_append_of_le_length (Nat.sub_le _ _)
  have hpast (t : List Char) (ht : Opens t) := Cursor.skipPast_withTail hne htail ht hinside
  have hcloses (t : List Char) (ht : Opens t) : (l.withTail t).startsWith "/>" = l.startsWith "/>" :=
    Cursor.startsWith_withTail (by decide) ht l
  refine ⟨l.skipPast ">", hpast tail htail, ?_⟩
  rw [hread, ok_bind]
  simp only [hpast tail htail, hpast t ht, hcloses tail htail, hcloses t ht, hraw]
  rfl

theorem endTag?_withTail {found : String} (hfound : endTag? (c.withTail tail).rest = some found)
    (hle : found.length + 2 ≤ c.rest.length) : endTag? (c.withTail t).rest = some found := by
  obtain ⟨pos, cs⟩ := c
  obtain ⟨d, e, cs, rfl⟩ : ∃ d e ds, cs = d :: e :: ds := by
    match cs, hle with
    | d :: e :: ds, _ => exact ⟨d, e, ds, rfl⟩
  unfold endTag? at hfound
  split at hfound
  · rename_i ds hcs
    obtain ⟨rfl, rfl, rfl⟩ : d = '<' ∧ e = '/' ∧ cs ++ tail = ds := by
      simpa [Cursor.withTail] using hcs
    obtain rfl := Option.some.inj hfound
    rw [String.length_ofList] at hle
    have hrun (t : List Char) (ht : Opens t) := Cursor.takeWhile_tail
      (p := fun c => !isBlank c && c != '>') hne htail ht (Nat.le_of_add_le_add_right hle)
    rw [hrun tail htail, ← hrun t ht]
    rfl
  · cases hfound

theorem readEndTag_withTail {tag : String} {start : Nat} {behind : Cursor}
    (hok : readEndTag tag start (c.withTail tail) = .ok behind)
    (hbehind : tail.length ≤ behind.rest.length) :
    ∃ d : Cursor, behind = d.withTail tail ∧
      readEndTag tag start (c.withTail t) = .ok (d.withTail t) := by
  unfold readEndTag at hok ⊢
  cases hfound : endTag? (c.withTail tail).rest with
  | none =>
    rw [hfound] at hok
    cases hok
  | some found =>
    rw [hfound] at hok
    dsimp only at hok
    split at hok
    · rename_i hsame
      obtain rfl := Except.ok.inj hok
      have hle := Cursor.le_length_of_advance hne
        (Nat.le_trans hbehind (Cursor.reaches_skipPast _ _).length_le)
      have hother := endTag?_withTail hne htail ht hfound hle
      rw [Cursor.advance_withTail hle] at hbehind
      rw [hother]
      dsimp only
      rw [if_pos hsame]
      refine ⟨(c.advance (found.length + 2)).skipPast ">", ?_, ?_⟩
      · rw [Cursor.advance_withTail hle, Cursor.skipPast_withTail hne htail htail hbehind]
      · rw [Cursor.advance_withTail hle, Cursor.skipPast_withTail hne htail ht hbehind]
    · cases hok

end Tags

/-! ## Texts and rows -/

theorem textRun_stops {inBraces : Bool} {cs behind : List Char}
    (h : cs = textRun inBraces cs ++ behind) (hne : behind ≠ []) :
    isCalm inBraces (textRun inBraces cs) = true ∧ atMarkup behind = true := by
  fun_induction textRun inBraces cs with
  | case1 inBraces cs ih =>
    obtain ⟨hcalm, hmarkup⟩ := ih (by simpa using h)
    refine ⟨?_, hmarkup⟩
    cases inBraces <;> simpa [isCalm] using hcalm
  | case2 inBraces cs ih =>
    obtain ⟨hcalm, hmarkup⟩ := ih (by simpa using h)
    refine ⟨?_, hmarkup⟩
    cases inBraces <;> simpa [isCalm, atMarkup] using hcalm
  | case3 inBraces c cs _ _ hstop =>
    obtain ⟨hout, hmarkup⟩ := Bool.and_eq_true_iff.1 hstop
    obtain rfl : inBraces = false := by simpa using hout
    rw [List.nil_append] at h
    exact ⟨rfl, h ▸ hmarkup⟩
  | case4 inBraces c cs hopen hclose hgoes ih =>
    have hcs : cs = textRun inBraces cs ++ behind := by simpa using h
    obtain ⟨hcalm, hmarkup⟩ := ih hcs
    refine ⟨?_, hmarkup⟩
    have hpair (d : Char) (ds : List Char) (hd : textRun inBraces cs = d :: ds) :
        cs = d :: (ds ++ behind) := by
      rw [hd] at hcs
      exact hcs
    -- Whether markup starts at `c` is told by the run alone, since markup follows it.
    have hfirst : atMarkup (c :: cs) = atMarkup (c :: textRun inBraces cs) :=
      (congrArg (fun rest => atMarkup (c :: rest)) hcs).trans (atMarkup_append (.inr hmarkup))
    have hout : (inBraces || !atMarkup (c :: cs)) = true := by
      cases inBraces with
      | false => simpa using hgoes
      | true => rfl
    rw [isCalm, hcalm, ← hfirst, hout]
    · rfl
    · rintro ds - rfl hd
      exact hopen _ rfl (hpair _ _ hd)
    · rintro ds - rfl hd
      exact hclose _ rfl (hpair _ _ hd)
  | case5 inBraces => exact absurd h.symm hne

theorem textRun_withTail (hne : tail ≠ []) (htail : Opens tail) (ht : Opens t)
    (h : (textRun false (c.withTail tail).rest).length ≤ c.rest.length) :
    textRun false (c.withTail t).rest = textRun false (c.withTail tail).rest := by
  obtain ⟨run, hrun⟩ : ∃ run, textRun false (c.withTail tail).rest = run := ⟨_, rfl⟩
  -- The run is a part of what stands in front of `tail`.
  obtain ⟨between, hbetween⟩ : run <+: c.rest := by
    refine List.prefix_of_prefix_length_le ?_ (List.prefix_append c.rest tail) (hrun ▸ h)
    exact hrun ▸ textRun_begins false _
  have hsplit (t : List Char) : (c.withTail t).rest = run ++ (between ++ t) := by
    rw [Cursor.withTail, ← hbetween, List.append_assoc]
  have hstop : (c.withTail tail).rest =
      textRun false (c.withTail tail).rest ++ (between ++ tail) := hrun.symm ▸ hsplit tail
  obtain ⟨hcalm, hmarkup⟩ := textRun_stops hstop (List.append_ne_nil_of_right_ne_nil _ hne)
  have hopens : Opens (between ++ t) := by
    cases between with
    | nil => exact ht
    | cons d ds =>
      rw [atMarkup_append htail] at hmarkup
      exact .inr ((atMarkup_append ht).trans hmarkup)
  rw [hrun, hsplit, textRun_calm (hrun ▸ hcalm) hopens]

theorem nextPiece_withTail (hc : c.rest ≠ []) (ht : Opens t) :
    nextPiece (c.withTail t) = nextPiece c := by
  obtain ⟨pos, cs⟩ := c
  obtain ⟨d, ds, rfl⟩ := List.exists_cons_of_ne_nil hc
  have hmarkup : atMarkup (d :: ds ++ t) = atMarkup (d :: ds) := atMarkup_append ht
  have hword (x : Char) (hx : '<' ∉ [x]) :
      ['<', x].isPrefixOf (d :: (ds ++ t)) = ['<', x].isPrefixOf (d :: ds) := by
    rw [List.isPrefixOf, Cursor.isPrefixOf_opens hx ht, ← List.isPrefixOf]
  have hslash : (Cursor.withTail t ⟨pos, d :: ds⟩).startsWith "</" =
      (Cursor.mk pos (d :: ds)).startsWith "</" := hword '/' (by decide)
  have hbang : (Cursor.withTail t ⟨pos, d :: ds⟩).startsWith "<!" =
      (Cursor.mk pos (d :: ds)).startsWith "<!" := hword '!' (by decide)
  have hend : (Cursor.withTail t ⟨pos, d :: ds⟩).atEnd = (Cursor.mk pos (d :: ds)).atEnd := rfl
  have hfirst : atMarkup (Cursor.withTail t ⟨pos, d :: ds⟩).rest = atMarkup (d :: ds) := hmarkup
  simp only [nextPiece, hslash, hbang, hend, hfirst]

def EndsRow (t : List Char) : Prop := t = [] ∨ ∃ cs, t = '<' :: '/' :: cs

theorem EndsRow.opens (h : EndsRow t) : Opens t := by
  rcases h with rfl | ⟨cs, rfl⟩
  · exact .inl rfl
  · exact .inr rfl

theorem EndsRow.nextPiece {pos : Nat} (h : EndsRow t) : nextPiece ⟨pos, t⟩ = .ends :=
  nextPiece_ends.2 h

theorem nextPiece_changed (htail : EndsRow tail) (ht : EndsRow t) {p : Piece}
    (h : nextPiece (c.withTail tail) = p) (hp : p ≠ .ends) :
    c.rest ≠ [] ∧ nextPiece (c.withTail t) = p := by
  have hc : c.rest ≠ [] := by
    intro hnil
    apply hp
    rw [← h, Cursor.withTail, hnil]
    exact htail.nextPiece
  exact ⟨hc, (nextPiece_withTail hc ht.opens).trans
    ((nextPiece_withTail hc htail.opens).symm.trans h)⟩

/-- A row that ends in front of `tail`, or of something before, is the same in front of `t`. -/
theorem Reads.withTail (hne : tail ≠ []) (htail : EndsRow tail) (ht : EndsRow t)
    {done nodes : List Node} {start stop : Cursor}
    (h : Reads done (start.withTail tail) nodes (stop.withTail tail)) :
    Reads done (start.withTail t) nodes (stop.withTail t) := by
  have hkept (d : Cursor) {e : Cursor} (hreaches : e.Reaches (d.withTail tail)) :
      tail.length ≤ e.rest.length := by
    have hlength := hreaches.length_le
    simp only [Cursor.withTail, List.length_append] at hlength
    omega
  generalize hfrom : start.withTail tail = c at h
  generalize hto : stop.withTail tail = d at h
  -- All cursors on the way reach `stop`, so none of them has gone into `tail`.
  induction h generalizing start stop with
  | ends hnext =>
    obtain ⟨hpos, hrest⟩ := Cursor.mk.inj (hfrom.trans hto.symm)
    have hsame : start = stop := congr (congrArg Cursor.mk hpos) (List.append_cancel_right hrest)
    subst hfrom hsame
    refine .ends ?_
    by_cases hc : start.rest = []
    · rw [Cursor.withTail, hc]
      exact ht.nextPiece
    · rw [nextPiece_withTail hc ht.opens, ← nextPiece_withTail hc htail.opens, hnext]
  | declaration hnext hrest ih =>
    subst hfrom hto
    obtain ⟨-, hnext'⟩ := nextPiece_changed htail ht hnext nofun
    have hpast (t : List Char) (ht : Opens t) :=
      Cursor.skipPast_withTail hne htail.opens ht (hkept stop hrest.reaches)
    refine .declaration hnext' ?_
    rw [hpast t ht.opens]
    exact ih (hpast tail htail.opens).symm rfl
  | blank hnext hblank hrest ih =>
    subst hfrom hto
    obtain ⟨-, hnext'⟩ := nextPiece_changed htail ht hnext nofun
    have hle := Cursor.le_length_of_advance hne (hkept stop hrest.reaches)
    have hrun := textRun_withTail hne htail.opens ht.opens hle
    refine .blank hnext' (hrun ▸ hblank) ?_
    rw [hrun, Cursor.advance_withTail hle]
    exact ih (Cursor.advance_withTail hle tail).symm rfl
  | @text _ _ _ _ value hnext hblank hvalue hrest ih =>
    subst hfrom hto
    obtain ⟨-, hnext'⟩ := nextPiece_changed htail ht hnext nofun
    have hle := Cursor.le_length_of_advance hne (hkept stop hrest.reaches)
    have hrun := textRun_withTail hne htail.opens ht.opens hle
    rw [Cursor.advance_withTail hle] at hvalue
    refine .text hnext' (hrun ▸ hblank) (?_ : readText _ _ = .ok value) ?_
    · rw [hrun, Cursor.advance_withTail hle]
      exact hvalue
    · rw [hrun, Cursor.advance_withTail hle]
      exact ih (Cursor.advance_withTail hle tail).symm rfl
  | single hnext hstart hsingle hsettle hrest ih =>
    subst hfrom hto
    obtain ⟨hc, hnext'⟩ := nextPiece_changed htail ht hnext nofun
    obtain ⟨inside, rfl, hstart'⟩ :=
      readStartTag_withTail hne htail.opens ht.opens hc hstart (hkept stop hrest.reaches)
    exact .single hnext' hstart' hsingle hsettle (ih rfl rfl)
  | element hnext hstart hsingle hinside hend hsettle hrest ihinside ihrest =>
    subst hfrom hto
    obtain ⟨hc, hnext'⟩ := nextPiece_changed htail ht hnext nofun
    have hlast := (reaches_readEndTag hend).trans hrest.reaches
    obtain ⟨inside, rfl, hstart'⟩ := readStartTag_withTail hne htail.opens ht.opens hc hstart
      (hkept stop (hinside.reaches.trans hlast))
    obtain ⟨last, rfl⟩ := Cursor.exists_withTail hlast
    obtain ⟨behind, rfl, hend'⟩ := readEndTag_withTail hne htail.opens ht.opens hend
      (hkept stop hrest.reaches)
    exact .element hnext' hstart' hsingle (ihinside rfl rfl) hend' hsettle (ihrest rfl rfl)

/-- Reading stops at the end or at an end tag for which no element is open. In front of such a tag
the markup is read as if it stood alone, whatever stands behind. -/
theorem read_stops {source : String} {nodes : List Node} (h : read source = .ok nodes) :
    ∃ consumed behind, source.toList = consumed ++ behind ∧
      (∀ n, source.toList.length < n →
        readNodes n [] (.start source) = .ok (nodes, ⟨byteLength consumed, behind⟩)) ∧
      (behind = [] ∨ (∃ cs, behind = '<' :: '/' :: cs) ∧
        ∀ t, EndsRow t → read (String.ofList (consumed ++ t)) = .ok nodes) := by
  obtain ⟨⟨pos, behind⟩, hreads⟩ := read_eq_ok.1 h
  obtain ⟨consumed, hsource, hpos⟩ := hreads.reaches
  obtain rfl : pos = byteLength consumed := by simpa [Cursor.start] using hpos
  refine ⟨consumed, behind, hsource, fun n hn => hreads.run hn, ?_⟩
  rcases nextPiece_ends.1 hreads.stops with hend | hstray
  · exact .inl hend
  · have hne : behind ≠ [] := by
      rintro rfl
      obtain ⟨cs, hcs⟩ := hstray
      cases hcs
    have hstart : Cursor.start source = Cursor.withTail behind ⟨0, consumed⟩ :=
      congrArg (Cursor.mk 0) hsource
    rw [hstart] at hreads
    refine .inr ⟨hstray, fun t ht => read_eq_ok.2 ⟨⟨byteLength consumed, t⟩, ?_⟩⟩
    have hother : Reads [] (Cursor.withTail t ⟨0, consumed⟩) nodes
        (Cursor.withTail t ⟨byteLength consumed, []⟩) := Reads.withTail hne (.inr hstray) ht hreads
    rw [Cursor.start, String.toList_ofList]
    exact hother

def sampleStray : String := "<p></p></b><i></i>"

theorem sampleStray_stops :
    ∃ nodes, read sampleStray = .ok nodes ∧
      ∃ consumed behind, sampleStray.toList = consumed ++ behind ∧
        (∀ n, sampleStray.toList.length < n →
          readNodes n [] (.start sampleStray) = .ok (nodes, ⟨byteLength consumed, behind⟩)) ∧
        (behind = [] ∨ (∃ cs, behind = '<' :: '/' :: cs) ∧
          ∀ t, EndsRow t → read (String.ofList (consumed ++ t)) = .ok nodes) := by
  have hok : (read sampleStray).toOption.isSome = true := by decide +kernel
  obtain ⟨nodes, hnodes⟩ := Option.isSome_iff_exists.1 hok
  have hread := toOption_eq_some.1 hnodes
  exact ⟨nodes, hread, read_stops hread⟩

/-- A part of the markup is not read, and the tree that is returned lacks an element. -/
theorem stray_end_accepted :
    ∃ nodes stop, read sampleStray = .ok nodes ∧
      (nodesOutlines nodes).map (·.head.tag) = ["p"] ∧
      readNodes (sampleStray.toList.length + 1) [] (.start sampleStray) = .ok (nodes, stop) ∧
        stop.rest = "</b><i></i>".toList := by
  have heval : (readNodes (sampleStray.toList.length + 1) [] (.start sampleStray)).toOption.any
      (fun r => (nodesOutlines r.1).map (·.head.tag) == ["p"] &&
        r.2.rest == "</b><i></i>".toList) = true := by
    decide +kernel
  simp only [Option.any_eq_true, Bool.and_eq_true, beq_iff_eq] at heval
  obtain ⟨⟨nodes, stop⟩, hok, htags, hrest⟩ := heval
  have hread := toOption_eq_some.1 hok
  have hreads := (readNodes_eq_ok (Nat.lt_succ_self _)).1 hread
  exact ⟨nodes, stop, read_eq_ok.2 ⟨stop, hreads⟩, htags, hread, hrest⟩

end San

end VueToSan
