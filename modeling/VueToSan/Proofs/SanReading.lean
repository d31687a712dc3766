import VueToSan.Proofs.ReadRounds
import VueToSan.Proofs.Results
import VueToSan.San.Reader

/-!
# How San markup is read

San markup is read piece by piece: declarations, texts and elements with their content. Each piece
takes a character at least, so reading comes to an end with as many rounds as there are characters.
It ends with the source or at an end tag that no element is open for; what stands behind such a tag
is not read.
-/

namespace VueToSan.San

open VueToSan.Text VueToSan.Markup

/-! ## Tags -/

theorem readAttr_behind (c : Cursor) :
    (c.advance (c.rest.takeWhile isAttrNameChar).length).Reaches (readAttr c).2.2 := by
  have hskip := Cursor.reaches_skipWhile
    (c.advance (c.rest.takeWhile isAttrNameChar).length) isBlank
  unfold readAttr
  dsimp only
  split
  · exact hskip.trans (((Cursor.reaches_advance _ 1).trans
      (Cursor.reaches_skipWhile _ isBlank)).trans (reaches_readValue _))
  · exact hskip

theorem reaches_readAttr (c : Cursor) : c.Reaches (readAttr c).2.2 :=
  (c.reaches_advance _).trans (readAttr_behind c)

theorem reaches_readAttrs {n : Nat} {h h' : Head} {c stop : Cursor}
    (hok : readAttrs n h c = .ok (h', stop)) : c.Reaches stop := by
  induction n generalizing h c with
  | zero =>
    obtain ⟨-, rfl⟩ := Prod.mk.inj (Except.ok.inj hok)
    exact .refl c
  | succ n ih =>
    have hskip := c.reaches_skipWhile isBlank
    unfold readAttrs at hok
    dsimp only at hok
    split at hok
    · obtain ⟨-, rfl⟩ := Prod.mk.inj (Except.ok.inj hok)
      exact hskip
    · split at hok
      · exact hskip.trans ((Cursor.reaches_advance _ 1).trans (ih hok))
      · obtain ⟨h1, -, hrest⟩ := bind_eq_ok.1 hok
        exact hskip.trans ((reaches_readAttr _).trans (ih hrest))

theorem readStartTag_behind {c inside : Cursor} {head : Head} {selfClosing : Bool}
    (hok : readStartTag c = .ok (head, selfClosing, inside)) :
    (c.advance (((c.rest.drop 1).takeWhile isTagChar).length + 1)).Reaches inside := by
  unfold readStartTag at hok
  obtain ⟨⟨h, last⟩, hattrs, hrest⟩ := bind_eq_ok.1 hok
  obtain ⟨-, hrest⟩ := Prod.mk.inj (Except.ok.inj hrest)
  obtain ⟨-, rfl⟩ := Prod.mk.inj hrest
  exact (reaches_readAttrs hattrs).trans (last.reaches_skipPast ">")

theorem reaches_readStartTag {c inside : Cursor} {head : Head} {selfClosing : Bool}
    (hok : readStartTag c = .ok (head, selfClosing, inside)) : c.Reaches inside :=
  (c.reaches_advance _).trans (readStartTag_behind hok)

theorem length_readStartTag_lt {c inside : Cursor} {head : Head} {selfClosing : Bool}
    (hc : c.rest ≠ []) (hok : readStartTag c = .ok (head, selfClosing, inside)) :
    inside.rest.length < c.rest.length :=
  Nat.lt_of_le_of_lt (readStartTag_behind hok).length_le
    (Cursor.length_advance_lt hc (Nat.succ_pos _))

theorem reaches_readEndTag {tag : String} {start : Nat} {c stop : Cursor}
    (hok : readEndTag tag start c = .ok stop) : c.Reaches stop := by
  unfold readEndTag at hok
  split at hok
  · cases hok
  · dsimp only at hok
    split at hok
    · obtain rfl := Except.ok.inj hok
      exact (c.reaches_advance _).trans (Cursor.reaches_skipPast _ _)
    · cases hok

/-! ## Pieces -/

inductive Piece where
  | ends
  | declaration
  | element
  | text

def nextPiece (c : Cursor) : Piece :=
  if c.atEnd || c.startsWith "</" then .ends
  else if c.startsWith "<!" then .declaration
  else if atMarkup c.rest then .element
  else .text

theorem nextPiece_ends {c : Cursor} :
    nextPiece c = .ends ↔ c.rest = [] ∨ ∃ cs, c.rest = '<' :: '/' :: cs := by
  have hends : nextPiece c = .ends ↔ (c.atEnd || c.startsWith "</") = true := by
    unfold nextPiece
    split
    · simp_all
    · split
      · simp_all
      · split <;> simp_all
  rw [hends, Bool.or_eq_true, Cursor.atEnd, List.isEmpty_iff, Cursor.startsWith,
    List.isPrefixOf_iff_prefix]
  exact or_congr_right (exists_congr fun _ => eq_comm)

theorem rest_ne_nil {c : Cursor} {p : Piece} (h : nextPiece c = p) (hp : p ≠ .ends) :
    c.rest ≠ [] :=
  fun hnil => hp (h.symm.trans (nextPiece_ends.2 (.inl hnil)))

theorem nextPiece_text {c : Cursor} (hne : c.rest ≠ []) (hmarkup : atMarkup c.rest = false) :
    nextPiece c = .text := by
  have hstart (d : Char) (hd : d = '/' ∨ d = '!') : ['<', d].isPrefixOf c.rest = false := by
    rw [Bool.eq_false_iff]
    intro hprefix
    obtain ⟨tail, htail⟩ := List.isPrefixOf_iff_prefix.1 hprefix
    rw [← htail] at hmarkup
    rcases hd with rfl | rfl <;> simp [atMarkup] at hmarkup
  have hend : c.atEnd = false := by simp [Cursor.atEnd, hne]
  have hslash : c.startsWith "</" = false := hstart '/' (.inl rfl)
  have hbang : c.startsWith "<!" = false := hstart '!' (.inr rfl)
  simp [nextPiece, hend, hslash, hbang, hmarkup]

theorem atMarkup_of_text {c : Cursor} (h : nextPiece c = .text) : atMarkup c.rest = false := by
  unfold nextPiece at h
  split at h
  · cases h
  · split at h
    · cases h
    · split at h
      · cases h
      · rename_i hmarkup
        exact Bool.eq_false_iff.2 hmarkup

theorem nextPiece_element {pos : Nat} {d : Char} {ds : List Char} (hd : isLetter d = true) :
    nextPiece ⟨pos, '<' :: d :: ds⟩ = .element := by
  have hletter := isLetter_iff.1 hd
  have hslash : ('/' == d) = false := beq_false_of_ne (by rintro rfl; simp at hletter)
  have hbang : ('!' == d) = false := beq_false_of_ne (by rintro rfl; simp at hletter)
  simp [nextPiece, Cursor.atEnd, Cursor.startsWith, List.isPrefixOf, atMarkup, hslash, hbang, hd]

theorem length_declaration_lt {c : Cursor} (h : nextPiece c = .declaration) :
    (c.skipPast ">").rest.length < c.rest.length :=
  Cursor.length_skipPast_lt (rest_ne_nil h nofun) (by decide)

theorem length_text_lt {c : Cursor} (h : nextPiece c = .text) :
    (c.advance (textRun false c.rest).length).rest.length < c.rest.length := by
  have hne := rest_ne_nil h nofun
  exact Cursor.length_advance_lt hne
    (List.length_pos_iff.2 (textRun_ne_nil hne (atMarkup_of_text h)))

/-! ## Elements -/

def readElement (n : Nat) (c : Cursor) : Except Error (Element × Cursor) := do
  let (head, selfClosing, inside) ← readStartTag c
  if selfClosing || isVoid head.tag then return (⟨head, [], []⟩, inside)
  let (children, last) ← readNodes n [] inside
  let stop ← readEndTag head.tag c.pos last
  return (⟨head, children, []⟩, stop)

def settle (e : Element) (done : List Node) : Option (List Node) :=
  if e.head.isElse then foldElse e done else some (.element e :: done)

theorem readNodes_next {n : Nat} (hn : 0 < n) (done : List Node) (c : Cursor) :
    readNodes n done c =
      match nextPiece c with
      | .ends => .ok (done.reverse, c)
      | .declaration => readNodes (n - 1) done (c.skipPast ">")
      | .element => (do
          let (e, stop) ← readElement (n - 1) c
          match settle e done with
          | some done' => readNodes (n - 1) done' stop
          | none => .error ⟨.elseWithoutIf, stop.spanFrom c.pos⟩)
      | .text =>
        let run := textRun false c.rest
        let stop := c.advance run.length
        if run.all isBlank then readNodes (n - 1) done stop
        else (do
          let value ← readText run (stop.spanFrom c.pos)
          readNodes (n - 1) (.text value :: done) stop) := by
  obtain ⟨n, rfl⟩ : ∃ k, n = k + 1 := ⟨n - 1, by omega⟩
  -- Whether an element goes behind the others or to the elses is all that `settle` decides.
  have hsettle (e : Element) (stop : Cursor) :
      (if e.head.isElse = true then
        match foldElse e done with
        | some done' => readNodes n done' stop
        | none => .error ⟨.elseWithoutIf, stop.spanFrom c.pos⟩
      else readNodes n (.element e :: done) stop) =
      match settle e done with
      | some done' => readNodes n done' stop
      | none => .error ⟨.elseWithoutIf, stop.spanFrom c.pos⟩ := by
    unfold settle
    split <;> rfl
  rw [readNodes, nextPiece, Nat.add_sub_cancel]
  split
  · rfl
  · split
    · rfl
    · split
      · simp only [readElement, ← hsettle]
        cases readStartTag c with
        | error e => rfl
        | ok start =>
          obtain ⟨head, selfClosing, inside⟩ := start
          simp only [ok_bind]
          by_cases hsingle : (selfClosing || isVoid head.tag) = true
          · rw [if_pos hsingle, if_pos hsingle]
            rfl
          · rw [if_neg hsingle, if_neg hsingle]
            cases readNodes n [] inside with
            | error e => rfl
            | ok body =>
              obtain ⟨children, last⟩ := body
              simp only [ok_bind]
              cases readEndTag head.tag c.pos last with
              | error e => rfl
              | ok stop => rfl
      · rfl

theorem readElement_eq_ok {n : Nat} {c stop : Cursor} {e : Element} :
    readElement n c = .ok (e, stop) ↔
      ∃ head selfClosing inside, readStartTag c = .ok (head, selfClosing, inside) ∧
        ((selfClosing || isVoid head.tag) = true ∧ e = ⟨head, [], []⟩ ∧ stop = inside ∨
          (selfClosing || isVoid head.tag) = false ∧ ∃ children last,
            readNodes n [] inside = .ok (children, last) ∧
              readEndTag head.tag c.pos last = .ok stop ∧ e = ⟨head, children, []⟩) := by
  unfold readElement
  rw [bind_eq_ok]
  constructor
  · rintro ⟨⟨head, selfClosing, inside⟩, hstart, hok⟩
    refine ⟨head, selfClosing, inside, hstart, ?_⟩
    dsimp only at hok
    split at hok
    · rename_i hsingle
      obtain ⟨rfl, rfl⟩ := Prod.mk.inj (Except.ok.inj hok)
      exact .inl ⟨hsingle, rfl, rfl⟩
    · rename_i hsingle
      obtain ⟨⟨children, last⟩, hinside, hok⟩ := bind_eq_ok.1 hok
      obtain ⟨behind, hend, hok⟩ := bind_eq_ok.1 hok
      obtain ⟨rfl, rfl⟩ := Prod.mk.inj (Except.ok.inj hok)
      exact .inr ⟨Bool.eq_false_iff.2 hsingle, children, last, hinside, hend, rfl⟩
  · rintro ⟨head, selfClosing, inside, hstart, h⟩
    refine ⟨(head, selfClosing, inside), hstart, ?_⟩
    dsimp only
    rcases h with ⟨hsingle, rfl, rfl⟩ | ⟨hsingle, children, last, hinside, hend, rfl⟩
    · rw [if_pos hsingle]
      rfl
    · rw [if_neg (Bool.eq_false_iff.1 hsingle), hinside, ok_bind]
      dsimp only
      rw [hend]
      rfl

/-! ## Reading without counting rounds -/

/-- What is read from a cursor up to the end of a row: the nodes, those before included, and where
the row ends. -/
inductive Reads : List Node → Cursor → List Node → Cursor → Prop
  | ends {done : List Node} {c : Cursor} (hnext : nextPiece c = .ends) :
      Reads done c done.reverse c
  | declaration {done nodes : List Node} {c stop : Cursor} (hnext : nextPiece c = .declaration)
      (hrest : Reads done (c.skipPast ">") nodes stop) : Reads done c nodes stop
  | blank {done nodes : List Node} {c stop : Cursor} (hnext : nextPiece c = .text)
      (hblank : (textRun false c.rest).all isBlank = true)
      (hrest : Reads done (c.advance (textRun false c.rest).length) nodes stop) :
      Reads done c nodes stop
  | text {done nodes : List Node} {c stop : Cursor} {value : Value}
      (hnext : nextPiece c = .text) (hblank : (textRun false c.rest).all isBlank = false)
      (hvalue : readText (textRun false c.rest)
        ((c.advance (textRun false c.rest).length).spanFrom c.pos) = .ok value)
      (hrest : Reads (.text value :: done) (c.advance (textRun false c.rest).length) nodes stop) :
      Reads done c nodes stop
  | single {done done' nodes : List Node} {c inside stop : Cursor} {head : Head}
      {selfClosing : Bool} (hnext : nextPiece c = .element)
      (hstart : readStartTag c = .ok (head, selfClosing, inside))
      (hsingle : (selfClosing || isVoid head.tag) = true)
      (hsettle : settle ⟨head, [], []⟩ done = some done')
      (hrest : Reads done' inside nodes stop) : Reads done c nodes stop
  | element {done done' children nodes : List Node} {c inside last behind stop : Cursor}
      {head : Head} {selfClosing : Bool} (hnext : nextPiece c = .element)
      (hstart : readStartTag c = .ok (head, selfClosing, inside))
      (hsingle : (selfClosing || isVoid head.tag) = false)
      (hinside : Reads [] inside children last)
      (hend : readEndTag head.tag c.pos last = .ok behind)
      (hsettle : settle ⟨head, children, []⟩ done = some done')
      (hrest : Reads done' behind nodes stop) : Reads done c nodes stop

namespace Reads

variable {done nodes : List Node} {c stop : Cursor}

theorem reaches (h : Reads done c nodes stop) : c.Reaches stop := by
  induction h with
  | ends => exact .refl _
  | declaration _ _ ih => exact (Cursor.reaches_skipPast _ _).trans ih
  | blank _ _ _ ih => exact (Cursor.reaches_advance _ _).trans ih
  | text _ _ _ _ ih => exact (Cursor.reaches_advance _ _).trans ih
  | single _ hstart _ _ _ ih => exact (reaches_readStartTag hstart).trans ih
  | element _ hstart _ _ hend _ _ ihinside ihrest =>
    exact (((reaches_readStartTag hstart).trans ihinside).trans (reaches_readEndTag hend)).trans
      ihrest

theorem stops (h : Reads done c nodes stop) : nextPiece stop = .ends := by
  induction h with
  | ends hnext => exact hnext
  | declaration _ _ ih => exact ih
  | blank _ _ _ ih => exact ih
  | text _ _ _ _ ih => exact ih
  | single _ _ _ _ _ ih => exact ih
  | element _ _ _ _ _ _ _ _ ih => exact ih

theorem length_behind_lt {children : List Node} {inside last behind : Cursor} {head : Head}
    {selfClosing : Bool} {tag : String} {start : Nat} (hc : c.rest ≠ [])
    (hstart : readStartTag c = .ok (head, selfClosing, inside))
    (hinside : Reads [] inside children last) (hend : readEndTag tag start last = .ok behind) :
    behind.rest.length < c.rest.length :=
  Nat.lt_of_le_of_lt (hinside.reaches.trans (reaches_readEndTag hend)).length_le
    (length_readStartTag_lt hc hstart)

theorem run (h : Reads done c nodes stop) {n : Nat} (hn : c.rest.length < n) :
    readNodes n done c = .ok (nodes, stop) := by
  induction h generalizing n with
  | ends hnext => rw [readNodes_next (by omega), hnext]
  | declaration hnext _ ih =>
    have hlength := length_declaration_lt hnext
    rw [readNodes_next (by omega), hnext]
    exact ih (by omega)
  | blank hnext hblank _ ih =>
    have hlength := length_text_lt hnext
    rw [readNodes_next (by omega), hnext]
    dsimp only
    rw [if_pos hblank]
    exact ih (by omega)
  | text hnext hblank hvalue _ ih =>
    have hlength := length_text_lt hnext
    rw [readNodes_next (by omega), hnext]
    dsimp only
    rw [if_neg (Bool.eq_false_iff.1 hblank), hvalue]
    exact ih (by omega)
  | single hnext hstart hsingle hsettle _ ih =>
    have hlength := length_readStartTag_lt (rest_ne_nil hnext nofun) hstart
    have he := readElement_eq_ok (n := n - 1).2 ⟨_, _, _, hstart, .inl ⟨hsingle, rfl, rfl⟩⟩
    rw [readNodes_next (by omega), hnext]
    dsimp only
    rw [he, ok_bind]
    dsimp only
    rw [hsettle]
    exact ih (by omega)
  | element hnext hstart hsingle hinside hend hsettle _ ihinside ihrest =>
    have hne := rest_ne_nil hnext nofun
    have hinner := length_readStartTag_lt hne hstart
    have hlength := length_behind_lt hne hstart hinside hend
    have he := readElement_eq_ok (n := n - 1).2
      ⟨_, _, _, hstart, .inr ⟨hsingle, _, _, ihinside (by omega), hend, rfl⟩⟩
    rw [readNodes_next (by omega), hnext]
    dsimp only
    rw [he, ok_bind]
    dsimp only
    rw [hsettle]
    exact ihrest (by omega)

end Reads

theorem reads_of_readNodes {n : Nat} {done nodes : List Node} {c stop : Cursor}
    (hn : c.rest.length < n) (h : readNodes n done c = .ok (nodes, stop)) :
    Reads done c nodes stop := by
  -- Every round takes a character, so the hypothesis applies to what is left.
  induction n generalizing done c nodes stop with
  | zero => exact absurd hn (Nat.not_lt_zero _)
  | succ n ih =>
    rw [readNodes_next (by omega), Nat.add_sub_cancel] at h
    cases hnext : nextPiece c with
    | ends =>
      rw [hnext] at h
      obtain ⟨rfl, rfl⟩ := Prod.mk.inj (Except.ok.inj h)
      exact .ends hnext
    | declaration =>
      rw [hnext] at h
      have hlength := length_declaration_lt hnext
      exact .declaration hnext (ih (by omega) h)
    | text =>
      rw [hnext] at h
      dsimp only at h
      have hlength := length_text_lt hnext
      split at h
      · rename_i hblank
        exact .blank hnext hblank (ih (by omega) h)
      · rename_i hblank
        obtain ⟨value, hvalue, hrest⟩ := bind_eq_ok.1 h
        exact .text hnext (Bool.eq_false_iff.2 hblank) hvalue (ih (by omega) hrest)
    | element =>
      rw [hnext] at h
      obtain ⟨⟨e, behind⟩, he, h⟩ := bind_eq_ok.1 h
      have hne := rest_ne_nil hnext nofun
      dsimp only at h
      split at h
      · rename_i done' hsettle
        obtain ⟨head, selfClosing, inside, hstart, hparts⟩ := readElement_eq_ok.1 he
        have hinner := length_readStartTag_lt hne hstart
        rcases hparts with ⟨hsingle, rfl, rfl⟩ | ⟨hsingle, children, last, hinside, hend, rfl⟩
        · exact .single hnext hstart hsingle hsettle (ih (by omega) h)
        · have hinside := ih (by omega) hinside
          have hlength := hinside.length_behind_lt hne hstart hend
          exact .element hnext hstart hsingle hinside hend hsettle (ih (by omega) h)
      · cases h

theorem readNodes_eq_ok {n : Nat} {done nodes : List Node} {c stop : Cursor}
    (hn : c.rest.length < n) :
    readNodes n done c = .ok (nodes, stop) ↔ Reads done c nodes stop :=
  ⟨reads_of_readNodes hn, fun h => h.run hn⟩

theorem read_eq_ok {source : String} {nodes : List Node} :
    read source = .ok nodes ↔ ∃ stop, Reads [] (.start source) nodes stop := by
  unfold read
  rw [bind_eq_ok]
  constructor
  · rintro ⟨⟨nodes', stop⟩, hread, hok⟩
    obtain rfl := Except.ok.inj hok
    exact ⟨stop, (readNodes_eq_ok (Nat.lt_succ_self _)).1 hread⟩
  · rintro ⟨stop, hreads⟩
    exact ⟨(nodes, stop), (readNodes_eq_ok (Nat.lt_succ_self _)).2 hreads, rfl⟩

end VueToSan.San
