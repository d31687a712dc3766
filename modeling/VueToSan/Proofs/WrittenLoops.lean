import VueToSan.Proofs.AttributeValues
import VueToSan.Transform.Rules.Control

/-!
# Loops that are read back

The header of a loop is written with the names of its item and its index, the code of its list as an
argument of `_l`, and the key. The list ends where a key starts, so the code is read whole if it
does not look like one anywhere.
-/

namespace VueToSan.San

open VueToSan.Text VueToSan.Markup VueToSan.Transform

/-! ## Where a key starts -/

def startsTrackBy (cs : List Char) : Bool :=
  cs.head?.any isBlank && (skipFolded? "trackby".toList (cs.dropWhile isBlank)).isSome

def mentionsTrackBy : List Char → Bool
  | [] => false
  | c :: cs => startsTrackBy (c :: cs) || mentionsTrackBy cs

theorem trackBy?_eq_none {cs : List Char} (h : startsTrackBy cs = false) : trackBy? cs = none := by
  rw [startsTrackBy, Bool.and_eq_false_iff] at h
  unfold trackBy?
  split
  · rename_i hblank
    have hword := h.resolve_left (by simp [hblank])
    rw [Option.isSome_eq_false_iff, Option.isNone_iff_eq_none] at hword
    rw [hword, Option.bind_none]
  · rfl

theorem isSome_skipFolded?_append {word cs rest : List Char} {c : Char} (hc : foldLetter c ∉ word) :
    (skipFolded? word (cs ++ c :: rest)).isSome = (skipFolded? word cs).isSome := by
  induction word generalizing cs with
  | nil => rfl
  | cons w word ih =>
    rw [List.mem_cons, not_or] at hc
    cases cs with
    | nil => simp [skipFolded?, hc.1]
    | cons d cs =>
      rw [List.cons_append, skipFolded?, skipFolded?]
      split
      · exact ih hc.2
      · rfl

theorem startsTrackBy_append (cs rest : List Char) :
    startsTrackBy (cs ++ ')' :: rest) = startsTrackBy cs := by
  cases cs with
  | nil => rfl
  | cons c cs =>
    have hdrop : (c :: cs ++ ')' :: rest).dropWhile isBlank =
        (c :: cs).dropWhile isBlank ++ ')' :: rest := by
      rw [List.dropWhile_append]
      split
      · rename_i hnil
        rw [List.isEmpty_iff.1 hnil]
        rfl
      · rfl
    rw [startsTrackBy, hdrop, isSome_skipFolded?_append (by decide)]
    rfl

theorem splitTrackBy_closed {cs rest : List Char} (h : mentionsTrackBy cs = false)
    (hrest : splitTrackBy (')' :: rest) = ([')'], trackBy? rest)) :
    splitTrackBy (cs ++ ')' :: rest) = (cs ++ [')'], trackBy? rest) := by
  induction cs with
  | nil => exact hrest
  | cons c cs ih =>
    rw [mentionsTrackBy, Bool.or_eq_false_iff] at h
    have hnone : trackBy? (cs ++ ')' :: rest) = none := by
      apply trackBy?_eq_none
      rw [startsTrackBy_append]
      cases cs with
      | nil => rfl
      | cons d cs =>
        rw [mentionsTrackBy, Bool.or_eq_false_iff] at h
        exact h.2.1
    rw [List.cons_append, splitTrackBy, hnone, ih h.2]
    rfl

theorem trackBy?_key {key : List Char} (h : Framed key) :
    trackBy? (" trackBy ".toList ++ key) = some key := by
  obtain ⟨c, hc, hblank⟩ := h.first
  obtain ⟨rest, rfl⟩ := List.head?_eq_some_iff.1 hc
  have hword : skipFolded? "trackby".toList ("trackBy ".toList ++ c :: rest) =
      some (' ' :: c :: rest) := rfl
  have hdrop : (" trackBy ".toList ++ c :: rest).dropWhile isBlank =
      "trackBy ".toList ++ c :: rest := rfl
  have hspace : isBlank ' ' = true := by decide
  have hafter : afterBlanks? (' ' :: c :: rest) = some (c :: rest) := by
    simp [afterBlanks?, hblank, hspace]
  have hhead : (" trackBy ".toList ++ c :: rest).head?.any isBlank = true := rfl
  rw [trackBy?, if_pos hhead, hdrop, hword, Option.bind_some, hafter]

/-! ## Names -/

def isLoopName (name : String) : Bool := !name.isEmpty && name.toList.all isNameChar

theorem isBlank_of_isNameChar {c : Char} (h : isNameChar c = true) : isBlank c = false := by
  by_cases hs : c.toNat = 0x17F
  · simp [isBlank, hs]
  by_cases hk : c.toNat = 0x212A
  · simp [isBlank, hk]
  apply isBlank_of_visible
  simp only [isNameChar, foldLetter, hs, hk, if_false, lowerChar, Bool.or_eq_true, beq_iff_eq] at h
  rcases h with ((h | h) | rfl) | rfl
  · split at h
    · rename_i hupper
      rw [isUpper_iff] at hupper
      omega
    · rw [isLower_iff] at h
      omega
  · rw [isDigit_iff] at h
    omega
  · decide
  · decide

structure StartsName (name rest : List Char) : Prop where
  blanks : (name ++ rest).dropWhile isBlank = name ++ rest
  taken : (name ++ rest).takeWhile isNameChar = name
  left : (name ++ rest).dropWhile isNameChar = rest
  nonempty : name.isEmpty = false

theorem startsName {name : String} (h : isLoopName name = true) {rest : List Char}
    (hrest : ∀ c ∈ rest.head?, isNameChar c = false) : StartsName name.toList rest := by
  rw [isLoopName, Bool.and_eq_true, Bool.not_eq_true', List.all_eq_true] at h
  cases hname : name.toList with
  | nil =>
    rw [String.toList_eq_nil_iff] at hname
    simp [hname] at h
  | cons c cs =>
    rw [hname] at h
    have hc : isBlank c = false := isBlank_of_isNameChar (h.2 c (by simp))
    exact ⟨by rw [List.cons_append, List.dropWhile_cons_of_neg (by simp [hc])],
      takeWhile_append_stop h.2 hrest, dropWhile_append_stop h.2 hrest, rfl⟩

/-! ## Headers -/

def headerTail (list : List Char) : List Char := ' ' :: 'i' :: 'n' :: ' ' :: list

theorem ofChars?_names {item behind list : List Char} {index : Option (List Char)}
    (hitem : StartsName item behind) (hlist : ∀ c ∈ list.head?, isBlank c = false)
    (hne : list ≠ [])
    (hindex : indexName? behind = index.map (·, headerTail list))
    (hbehind : index = none → behind = headerTail list) :
    LoopText.ofChars? (item ++ behind) =
      some ⟨item, index, (splitTrackBy list).1, (splitTrackBy list).2⟩ := by
  obtain ⟨c, list, rfl⟩ := List.exists_cons_of_ne_nil hne
  have hc : isBlank c = false := hlist c rfl
  have hspace : isBlank ' ' = true := by decide
  have hhead : ¬(false || !(headerTail (c :: list)).head?.any isBlank) = true := Bool.false_ne_true
  have hword : skipFolded? "in".toList ((headerTail (c :: list)).dropWhile isBlank) =
      some (' ' :: c :: list) := rfl
  have hafter : afterBlanks? (' ' :: c :: list) = some (c :: list) := by
    simp [afterBlanks?, hc, hspace]
  unfold LoopText.ofChars?
  dsimp only
  rw [hitem.blanks, hitem.taken, hitem.left, hindex, hitem.nonempty]
  cases index with
  | none =>
    rw [hbehind rfl]
    dsimp only [Option.map_none]
    rw [if_neg hhead, hword, Option.bind_some, hafter]
  | some name =>
    dsimp only [Option.map_some]
    rw [if_neg hhead, hword, Option.bind_some, hafter]

theorem ofChars?_written {l : Loop} (hitem : isLoopName l.item = true)
    (hindex : ∀ i ∈ l.iterator1, isLoopName i = true) {list : List Char}
    (hlist : ∀ c ∈ list.head?, isBlank c = false) (hne : list ≠ []) :
    LoopText.ofChars? ((loopNames l).toList ++ headerTail list) =
      some ⟨l.item.toList, l.iterator1.map (·.toList), (splitTrackBy list).1,
        (splitTrackBy list).2⟩ := by
  have hblank : ∀ c ∈ (headerTail list).head?, isNameChar c = false := by
    simp [headerTail]
    decide
  cases hiterator : l.iterator1 with
  | none =>
    rw [loopNames, hiterator]
    exact ofChars?_names (startsName hitem hblank) hlist hne rfl fun _ => rfl
  | some index =>
    have hcomma : ∀ c ∈ (',' :: (index.toList ++ headerTail list)).head?, isNameChar c = false := by
      simp
      decide
    have hnames : (loopNames l).toList ++ headerTail list =
        l.item.toList ++ ',' :: (index.toList ++ headerTail list) := by
      simp [loopNames, hiterator]
    obtain ⟨hblanks, htaken, hleft, hnonempty⟩ := startsName (hindex index hiterator) hblank
    have hfound : indexName? (',' :: (index.toList ++ headerTail list)) =
        some (index.toList, headerTail list) := by
      have hstart : (',' :: (index.toList ++ headerTail list)).dropWhile isBlank =
          ',' :: (index.toList ++ headerTail list) := rfl
      simp [indexName?, hstart, hblanks, htaken, hleft, hnonempty]
    rw [hnames]
    exact ofChars?_names (startsName hitem hcomma) hlist hne hfound (by simp)

end VueToSan.San
