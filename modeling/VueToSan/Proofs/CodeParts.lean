import VueToSan.Proofs.PartParses
import VueToSan.Proofs.RespelledCode
import VueToSan.Proofs.StructuralCode

/-!
# Parts of native code

What San cuts out of code is made of tokens of the code: the handler behind modifiers, the list of a
loop and its key, and the test of a choice. So native code has native parts.
-/

namespace VueToSan.Expr

open VueToSan.Text VueToSan.San

/-! ## Handlers behind modifiers -/

theorem lexesTo_colon (rest : List Char) : LexesTo [':'] rest [.punct .colon] :=
  lexesTo_punct (p := .colon) (by simp [Punct.successors]) (by simp)

theorem isWord_letters {word : List Char} (hne : word ≠ [])
    (hword : ∀ c ∈ word, isLetter c = true) : isWord (String.ofList word) = true := by
  obtain ⟨c, cs, rfl⟩ := List.exists_cons_of_ne_nil hne
  rw [List.forall_mem_cons] at hword
  have hparts : ∀ d ∈ cs, isIdentPart d = true := fun d hd => by
    simp [isIdentPart, isIdentStart, hword.2 d hd]
  simpa [isWord, isIdentStart, hword.1] using hparts

theorem isFlat_word (name : String) :
    (wordToken name).IsFlat ∧ (wordToken name).isTemplate = false ∧
      ∀ ts, startsColon (wordToken name :: ts) = false := by
  unfold wordToken
  split <;> exact ⟨⟨fun _ => rfl, rfl⟩, rfl, fun _ => rfl⟩

theorem lexesTo_letters {word : List Char} (hne : word ≠ [])
    (hword : ∀ c ∈ word, isLetter c = true) {rest : List Char}
    (hrest : ∀ c ∈ rest.head?, isIdentPart c = false) :
    LexesTo word rest [wordToken (String.ofList word)] := by
  have hlex := lexesTo_word (isWord_letters hne hword) hrest
  rwa [String.toList_ofList] at hlex

theorem lexesTo_modifier {word : List Char} (hne : word ≠ [])
    (hword : ∀ c ∈ word, isLetter c = true) (rest : List Char) :
    LexesTo (word ++ [':']) rest [wordToken (String.ofList word), .punct .colon] :=
  (lexesTo_letters hne hword (by simp; decide)).append (lexesTo_colon rest)

theorem isNative_modified {word cs : List Char} (hword : ∀ c ∈ word, isLetter c = true)
    (h : IsNative cs) : IsNative (word ++ ':' :: cs) := by
  have hcolon : ∀ {depth : Nat} {vs : List Token}, areNative depth false vs = true →
      areNative depth false (.punct .colon :: vs) = true := fun hvs =>
    areNative_cons.2 ⟨.inr (.inr rfl), rfl, hvs⟩
  rcases eq_or_ne word [] with rfl | hne
  · exact h.behind (lexesTo_colon cs) fun vs hvs => hcolon hvs
  · obtain ⟨hflat, htemplate, -⟩ := isFlat_word (String.ofList word)
    have hwhole := h.behind (lexesTo_modifier hne hword cs) fun vs hvs =>
      areNative_cons.2 ⟨.inr (.inl rfl), htemplate, by
        rw [hflat.nesting, hflat.dot]
        exact hcolon hvs⟩
    rwa [List.append_assoc, List.singleton_append] at hwhole

theorem isNative_behind_modifier {word cs : List Char} (hne : word ≠ [])
    (hword : ∀ c ∈ word, isLetter c = true) (h : IsNative (word ++ ':' :: cs)) : IsNative cs := by
  rw [← List.singleton_append, ← List.append_assoc] at h
  exact h.rest (lexesTo_modifier hne hword cs) fun vs hvs =>
    @areNative_behind _ _ _ [_] _ ⟨fun _ => rfl, rfl⟩ hvs

theorem isNative_spanModifiers {word cs : List Char} (hword : ∀ c ∈ word, isLetter c = true)
    (h : IsNative (word.reverse ++ cs)) : IsNative (spanModifiers word cs).2 := by
  fun_induction spanModifiers word cs with
  | case1 word cs hempty =>
    rw [List.isEmpty_iff.1 hempty] at h
    exact h
  | case2 word cs hne words rest hspan ih =>
    have hword : ∀ c ∈ word.reverse, isLetter c = true := fun c hc => hword c (List.mem_reverse.1 hc)
    have hrest := isNative_behind_modifier (by simpa using hne) hword h
    rw [hspan] at ih
    exact ih (by simp) hrest
  | case3 word c cs hcolon hletter ih =>
    apply ih (List.forall_mem_cons.2 ⟨hletter, hword⟩)
    rwa [List.reverse_cons, List.append_assoc, List.singleton_append]
  | case4 word c cs hcolon hletter => exact h
  | case5 word => rwa [List.append_nil] at h

/-! ## Lists and keys of loops -/

theorem Lexed.behind_spaces {pos : Nat} {blanks cs : List Char} {ts : List Lexeme}
    (hblanks : ∀ c ∈ blanks, c = ' ') (h : Lexed pos (blanks ++ cs) ts) :
    ∃ start, Lexed start cs ts := by
  induction blanks generalizing pos with
  | nil => exact ⟨pos, h⟩
  | cons c blanks ih =>
    rw [List.forall_mem_cons] at hblanks
    obtain ⟨rfl, hblanks⟩ := hblanks
    generalize htext : ' ' :: blanks ++ cs = text at h
    cases h with
    | nil => cases htext
    | space hsep h =>
      obtain ⟨rfl, rfl⟩ := List.cons.inj htext
      exact ih hblanks h
    | token hsep hscans h =>
      obtain ⟨rfl, -⟩ := List.cons.inj htext
      cases hsep

theorem Lexed.first_le {pos : Nat} {c : Char} {cs : List Char} {ts : List Lexeme}
    (h : Lexed pos (c :: cs) ts) : c.toNat ≤ 126 := by
  generalize htext : c :: cs = text at h
  cases h with
  | nil => cases htext
  | space hsep _ =>
    obtain ⟨rfl, -⟩ := List.cons.inj htext
    simp only [isSeparator, Bool.or_eq_true, beq_iff_eq] at hsep
    rcases hsep with (((rfl | rfl) | rfl) | rfl) | rfl <;> decide
  | token _ hscans _ =>
    obtain ⟨rfl, -⟩ := List.cons.inj htext
    exact (visible_of_scan (hscans.scan _ List.prefix_rfl)).2

/-- The long s and the kelvin sign are letters to a loop, but stand in no token. -/
theorem isLetter_of_folded {c : Char} (h : isLower (foldLetter c) = true) :
    isLetter c = true ∨ 126 < c.toNat := by
  unfold foldLetter at h
  split_ifs at h with hs hk
  · exact .inr (by omega)
  · exact .inr (by omega)
  · unfold lowerChar at h
    split at h
    · rename_i hupper
      exact .inl (by rw [isLetter, hupper, Bool.or_true])
    · exact .inl (by rw [isLetter, h, Bool.true_or])

theorem isIdentPart_of_lt {c : Char} (h : 126 < c.toNat) : isIdentPart c = false := by
  rw [Bool.eq_false_iff]
  intro hc
  rw [isIdentPart, Bool.or_eq_true, isDigit_iff] at hc
  rcases hc with hc | hc
  · exact absurd (visible_of_isIdentStart hc).2 (by omega)
  · omega

theorem Lexed.isLetter_of_folded {pos : Nat} {front word rest : List Char} {ts : List Lexeme}
    (hfront : ∀ c ∈ front, isLetter c = true) (hword : ∀ c ∈ word, isLower (foldLetter c) = true)
    (h : Lexed pos (front ++ (word ++ rest)) ts) : ∀ c ∈ word, isLetter c = true := by
  induction word generalizing front with
  | nil => simp
  | cons c word ih =>
    rw [List.forall_mem_cons] at hword
    have hc : isLetter c = true := by
      rcases Expr.isLetter_of_folded hword.1 with hc | hc
      · exact hc
      · rcases eq_or_ne front [] with rfl | hne
        · exact absurd h.first_le (by omega)
        · have hstop : LexesTo front (c :: word ++ rest) _ :=
            lexesTo_letters hne hfront (by simpa using isIdentPart_of_lt hc)
          obtain ⟨start, us, -, hus⟩ := hstop.rest h
          exact absurd hus.first_le (by omega)
    refine List.forall_mem_cons.2 ⟨hc, @ih (front ++ [c]) ?_ hword.2 (by simpa using h)⟩
    exact List.forall_mem_append.2 ⟨hfront, by simpa using hc⟩

theorem Lexed.folded_word {pos : Nat} {word rest : List Char} {ts : List Lexeme} (hne : word ≠ [])
    (hword : ∀ c ∈ word, isLower (foldLetter c) = true) (h : Lexed pos (word ++ ' ' :: rest) ts) :
    ∃ name start us, tokens ts = wordToken name :: tokens us ∧ Lexed start (' ' :: rest) us := by
  have hletters := @Lexed.isLetter_of_folded _ [] _ _ _ (by simp) hword h
  obtain ⟨start, us, htokens, hus⟩ :=
    (@lexesTo_letters _ hne hletters (' ' :: rest) (by simp; decide)).rest h
  exact ⟨_, start, us, htokens, hus⟩

theorem skipFolded?_eq_some {ws cs rest : List Char} (h : skipFolded? ws cs = some rest) :
    ∃ word, cs = word ++ rest ∧ word.map foldLetter = ws := by
  induction ws generalizing cs with
  | nil => exact ⟨[], Option.some.inj h, rfl⟩
  | cons w ws ih =>
    cases cs with
    | nil => cases h
    | cons c cs =>
      obtain ⟨hc, hrest⟩ := Option.ite_none_right_eq_some.1 h
      obtain ⟨word, rfl, hword⟩ := ih hrest
      exact ⟨c :: word, rfl, by rw [List.map_cons, hc, hword]⟩

theorem afterBlanks?_eq_some {cs key : List Char} (h : afterBlanks? cs = some key) :
    ∃ blanks, blanks ≠ [] ∧ (∀ c ∈ blanks, isBlank c = true) ∧ cs = blanks ++ key := by
  have hcs : cs.takeWhile isBlank ++ cs.dropWhile isBlank = cs := List.takeWhile_append_dropWhile
  have hblank : ∀ c ∈ cs.takeWhile isBlank, isBlank c = true := of_mem_takeWhile
  unfold afterBlanks? at h
  dsimp only at h
  split at h
  · cases h
  · rename_i c rest hdrop hne
    obtain rfl := Option.some.inj h
    exact ⟨cs.takeWhile isBlank, fun hnil => hne hnil, hblank, by rw [← hdrop, hcs]⟩
  · cases h
  · rename_i b c blanks htake hdrop
    obtain ⟨last, hlast, rfl⟩ := Option.map_eq_some_iff.1 h
    rw [hdrop, List.append_nil] at hcs
    rw [hcs] at htake hblank hlast
    obtain ⟨front, hfront⟩ := List.getLast?_eq_some_iff.1 hlast
    refine ⟨front, ?_, fun d hd => hblank d (by rw [hfront]; simp [hd]), hfront⟩
    rintro rfl
    rw [htake] at hfront
    cases hfront

/-- A key stands behind the word for it, between blanks. -/
theorem trackBy?_eq_some {cs key : List Char} (h : trackBy? cs = some key) :
    ∃ front word blanks, cs = front ++ (word ++ (blanks ++ key)) ∧
      (front ≠ [] ∧ ∀ c ∈ front, isBlank c = true) ∧ word.map foldLetter = "trackby".toList ∧
        blanks ≠ [] ∧ ∀ c ∈ blanks, isBlank c = true := by
  obtain ⟨hhead, h⟩ := Option.ite_none_right_eq_some.1 h
  obtain ⟨b, hb, hblank⟩ := (Option.any_eq_true _ _).1 hhead
  obtain ⟨cs, rfl⟩ := List.head?_eq_some_iff.1 hb
  obtain ⟨behind, hskip, hafter⟩ := Option.bind_eq_some_iff.1 h
  obtain ⟨word, hword, hfold⟩ := skipFolded?_eq_some hskip
  obtain ⟨blanks, hne, hblanks, rfl⟩ := afterBlanks?_eq_some hafter
  refine ⟨(b :: cs).takeWhile isBlank, word, blanks, ?_, ⟨?_, of_mem_takeWhile⟩, hfold, hne, hblanks⟩
  · rw [← hword, List.takeWhile_append_dropWhile]
  · simp [hblank]

theorem splitTrackBy_cases (cs : List Char) : splitTrackBy cs = (cs, none) ∨
    ∃ list rest key, cs = list ++ rest ∧ trackBy? rest = some key ∧
      splitTrackBy cs = (list, some key) := by
  induction cs with
  | nil => exact .inl rfl
  | cons c cs ih =>
    rw [splitTrackBy]
    cases hkey : trackBy? cs with
    | some key => exact .inr ⟨[c], cs, key, rfl, hkey, rfl⟩
    | none =>
      rcases ih with ih | ⟨list, rest, key, rfl, hrest, ih⟩
      · exact .inl (by rw [ih])
      · exact .inr ⟨c :: list, rest, key, rfl, hrest, by rw [ih]⟩

theorem exists_trim (cs : List Char) : ∃ a b, cs = a ++ (trim cs ++ b) ∧
    (∀ c ∈ a, isBlank c = true) ∧ ∀ c ∈ b, isBlank c = true := by
  refine ⟨cs.takeWhile isBlank, ((trimStart cs).reverse.takeWhile isBlank).reverse, ?_,
    of_mem_takeWhile, fun c hc => of_mem_takeWhile c (List.mem_reverse.1 hc)⟩
  rw [Text.trim, trimEnd, dropEndWhile, ← List.reverse_append, List.takeWhile_append_dropWhile,
    List.reverse_reverse, trimStart, List.takeWhile_append_dropWhile]

theorem Lexed.behind_list {pos start : Nat} {list gap word gap' key : List Char}
    {ts us : List Lexeme} (h : Lexed pos (list ++ (gap ++ (word ++ (gap' ++ key)))) ts)
    (hlist : Lexed start list us) (hgap : gap ≠ [] ∧ ∀ c ∈ gap, c = ' ')
    (hword : word ≠ [] ∧ ∀ c ∈ word, isLower (foldLetter c) = true)
    (hgap' : gap' ≠ [] ∧ ∀ c ∈ gap', c = ' ') :
    ∃ name stop vs, tokens ts = tokens us ++ wordToken name :: tokens vs ∧ Lexed stop key vs := by
  have hfirst : ∀ {run : List Char}, run ≠ [] ∧ (∀ c ∈ run, c = ' ') → ∃ more, run = ' ' :: more := by
    rintro run ⟨hne, hall⟩
    obtain ⟨c, more, rfl⟩ := List.exists_cons_of_ne_nil hne
    exact ⟨more, by rw [hall c List.mem_cons_self]⟩
  obtain ⟨more, rfl⟩ := hfirst hgap
  obtain ⟨more', rfl⟩ := hfirst hgap'
  obtain ⟨_, vs, hts, hvs⟩ :=
    (hlist.lexesTo (d := ' ') (by simp [dividers]) (more ++ (word ++ (' ' :: more' ++ key)))).rest h
  obtain ⟨_, hvs⟩ := hvs.behind_spaces hgap.2
  obtain ⟨name, _, ws, htokens, hws⟩ := hvs.folded_word hword.1 hword.2
  obtain ⟨stop, hws⟩ := hws.behind_spaces hgap'.2
  exact ⟨name, stop, ws, by rw [hts, htokens]; rfl, hws⟩

/-- The list of a loop ends where a key starts, wherever that is. If the list can be cut into tokens
at all, it ends where one of them does. -/
theorem isNative_splitTrackBy {cs : List Char} (h : IsNative cs)
    (hblank : ∀ c ∈ cs, isBlank c = true → c = ' ')
    (hlist : ∃ pos us, Lexed pos (trim (splitTrackBy cs).1) us) :
    IsNative (trim (splitTrackBy cs).1) ∧ ∀ key ∈ (splitTrackBy cs).2, IsNative key := by
  rcases splitTrackBy_cases cs with hsplit | ⟨list, rest, key, rfl, hkey, hsplit⟩
  · rw [hsplit]
    exact ⟨h.trim, by simp⟩
  · rw [hsplit] at hlist ⊢
    obtain ⟨front, word, blanks, rfl, hfront, hfold, hblanks⟩ := trackBy?_eq_some hkey
    obtain ⟨a, b, htrim, ha, hb⟩ := exists_trim list
    obtain ⟨pos, us, hus⟩ := hlist
    dsimp only at hus ⊢
    obtain ⟨ts, hts, hnative⟩ := h
    have hsource : list ++ (front ++ (word ++ (blanks ++ key))) =
        a ++ (trim list ++ ((b ++ front) ++ (word ++ (blanks ++ key)))) := by
      nth_rewrite 1 [htrim]
      simp
    rw [hsource] at hts hblank
    simp only [List.forall_mem_append] at hblank
    obtain ⟨ha', -, ⟨hb', hfront'⟩, -, hblanks', -⟩ := hblank
    obtain ⟨_, hts⟩ := hts.behind_spaces fun c hc => ha' c hc (ha c hc)
    have hword : word ≠ [] ∧ ∀ c ∈ word, isLower (foldLetter c) = true := by
      have hall : ∀ c ∈ word.map foldLetter, isLower c = true := by
        rw [hfold]
        exact forall_of_all (by decide)
      refine ⟨?_, fun c hc => hall _ (List.mem_map_of_mem hc)⟩
      rintro rfl
      cases hfold
    obtain ⟨name, stop, vs, htokens, hvs⟩ := hts.behind_list hus
      ⟨by simp [hfront.1], List.forall_mem_append.2
        ⟨fun c hc => hb' c hc (hb c hc), fun c hc => hfront' c hc (hfront.2 c hc)⟩⟩ hword
      ⟨hblanks.1, fun c hc => hblanks' c hc (hblanks.2 c hc)⟩
    obtain ⟨hflat, -, hcolon⟩ := isFlat_word name
    rw [htokens] at hnative
    refine ⟨hus.isNative (areNative_front (hcolon _) hnative), fun key' hkey' => ?_⟩
    obtain rfl := Option.some.inj hkey'
    exact hvs.isNative (areNative_behind hflat hnative)

/-! ## Tests of choices -/

theorem suffix_of_dropBytes? {n : Nat} {cs ds : List Char} (h : dropBytes? n cs = some ds) :
    ds <:+ cs := by
  fun_induction dropBytes? n cs with
  | case1 cs => exact Option.some.inj h ▸ List.suffix_rfl
  | case2 => cases h
  | case3 n c cs hsize ih => exact (ih h).trans (List.suffix_cons c cs)
  | case4 => cases h

theorem prefix_of_takeBytes? {n : Nat} {cs ds : List Char} (h : takeBytes? n cs = some ds) :
    ds <+: cs := by
  fun_induction takeBytes? n cs generalizing ds with
  | case1 cs => exact Option.some.inj h ▸ List.nil_prefix
  | case2 => cases h
  | case3 n c cs hsize ih =>
    obtain ⟨front, hfront, rfl⟩ := Option.map_eq_some_iff.1 h
    exact List.cons_prefix_cons.2 ⟨rfl, ih hfront⟩
  | case4 => cases h

theorem slice_infix (s : Span) (source : String) : (s.slice source).toList <:+: source.toList := by
  rw [Span.slice, String.toList_ofList, sliceBytes?]
  split
  · cases hdrop : dropBytes? s.start source.toList with
    | none => exact List.nil_infix
    | some behind =>
      rw [Option.bind_some]
      cases htake : takeBytes? (s.stop - s.start) behind with
      | none => exact List.nil_infix
      | some cut =>
        exact (prefix_of_takeBytes? htake).isInfix.trans (suffix_of_dropBytes? hdrop).isInfix
  · exact List.nil_infix

theorem areNative_parens {depth : Nat} {ts : List Lexeme} {us : List Token}
    (hts : ∀ t ∈ ts, t.token = .punct .lparen)
    (h : areNative depth false (tokens ts ++ us) = true) : areNative 0 false us = true := by
  induction ts generalizing depth with
  | nil => exact areNative_mono (Nat.zero_le _) id h
  | cons t ts ih =>
    rw [List.forall_mem_cons] at hts
    rw [tokens_cons, hts.1, List.cons_append, areNative_cons] at h
    exact ih hts.2 h.2.2

theorem startsColon_of_head {ts : List Lexeme} (h : ∃ t ∈ ts.head?, t.token ≠ .punct .colon) :
    startsColon (tokens ts) = false := by
  obtain ⟨t, ht, hne⟩ := h
  obtain ⟨ts, rfl⟩ := List.head?_eq_some_iff.1 ht
  rw [tokens_cons]
  unfold startsColon
  split
  · rename_i heq
    exact absurd (List.cons.inj heq).1 hne
  · rfl

/-- What stands under the test of a choice is a part of its code, whatever brackets it has. -/
theorem isCodePart_test {source : String} {p : Piped} {l : Location} {test c a : Node}
    (h : parse source = .ok p) (hchoice : p.expression = .conditional l test c a)
    (hpart : IsCodePart source.toList) : IsCodePart (test.span.slice source).toList := by
  obtain ⟨used, behind, hlexed, pre, core, post, rfl, hpre, hpost, hcore, hspan, -⟩ :=
    parse_covers_test h hchoice
  have hparts : Lexed 0 source.toList (pre ++ (core ++ (post ++ behind))) := by
    simpa using hlexed
  obtain ⟨front, text, rest, start, hsource, hfront, htext, hslice⟩ := hparts.parts hcore
  rw [hspan, hslice, String.toList_ofList]
  obtain ⟨⟨d, e, hcrosses⟩, ts, hts, hnative⟩ := hpart
  rw [hsource] at hcrosses
  obtain ⟨m, -, hbehind⟩ := hcrosses.split hfront
  obtain ⟨k, hcross, -⟩ := hbehind.split htext
  obtain rfl := Except.ok.inj (hts.tokenizeFrom.symm.trans hparts.tokenizeFrom)
  rw [tokens_append, tokens_append] at hnative
  refine ⟨⟨m, k, hcross⟩, htext.isNative (areNative_front ?_ (areNative_parens hpre hnative))⟩
  obtain ⟨t, ht, hne⟩ := hpost
  exact startsColon_of_head ⟨t, by rw [List.head?_append, ht]; rfl, hne⟩

end VueToSan.Expr
