import VueToSan.Proofs.RespelledCode
import VueToSan.Proofs.StructuralCode

/-!
# Code that San reads as an admitted expression

Whatever San makes of compiled code is an expression with admitted operators, and so is what it
makes of a call of a helper whose arguments are codes, fixed strings or fixed objects. This holds of
code that is a whole value and of code between double braces.
-/

namespace VueToSan.Expr

open VueToSan.Text VueToSan.San

/-- Code that is read as an admitted expression if it is read at all, also between braces. -/
structure IsSound (code : String) : Prop where
  trimmed : trim code.toList = code.toList
  plain : IsPlainCode code
  native : IsNative code.toList

theorem IsSound.isCodePart {code : String} (h : IsSound code) : IsCodePart code.toList where
  crosses := ⟨0, 0, h.plain⟩
  native := h.native

/-- Code that may stand between the brackets and marks of other code. -/
structure IsInner (code : String) : Prop where
  plain : IsPlainCode code
  passes : ∃ ts, Lexes false code.toList ts ∧ Passes ts

/-! ## Compiled sources -/

/-- A source that has no point behind a whole number and no filter mark of its own. -/
def IsSafeSource (source : String) : Prop := ∀ e, parse source = .ok e → e.IsDotSafe

instance (source : String) : Decidable (IsSafeSource source) :=
  inferInstanceAs (Decidable (∀ e, parse source = .ok e → e.IsDotSafe))

/-- A source that is not put through filters. -/
def IsUnfiltered (source : String) : Prop := ∀ e, parse source = .ok e → e.filters = []

instance (source : String) : Decidable (IsUnfiltered source) :=
  inferInstanceAs (Decidable (∀ e, parse source = .ok e → e.filters = []))

section Sources

variable {source : String} {compiled : Compiled}

theorem ReadsAdmitted.passes {text : String} (h : ReadsAdmitted text) :
    ∃ ts, Lexes false text.toList ts ∧ Passes ts := by
  obtain ⟨e, hadmitted, ts, hlex, hwrites⟩ := h
  exact ⟨ts, hlex, (hwrites false).passes hadmitted⟩

theorem isSound_empty : IsSound "" where
  trimmed := rfl
  plain := .nil
  native := ⟨[], .nil, rfl⟩

theorem isSound_compile (h : compile source = .ok compiled) (hsafe : IsSafeSource source) :
    IsSound compiled.text := by
  cases hblank : allBlank source with
  | true =>
    rw [Transform.compile_blank hblank h]
    exact isSound_empty
  | false =>
    obtain ⟨e, he⟩ := exists_parsed hblank h
    obtain ⟨hspelled, hfilters⟩ := parse_isSpelled he
    obtain ⟨hexpression, harguments, hmarks⟩ := hsafe e he
    obtain ⟨base, hbase, happly⟩ := compile_ok he h
    obtain ⟨ts, hlex, hpasses⟩ :=
      (generate_parses e.expression hbase hexpression hspelled).admitted.passes
    obtain ⟨text, gs, htext, ⟨hstop, us, hlex', hwrites⟩, hadmitted⟩ :=
      applyFilters_admitted happly hfilters harguments hmarks
    refine ⟨(framed_compile hblank h).trim_eq, plain_compile h fun e he => (hsafe e he).filters, ?_⟩
    rw [htext]
    have hwhole := hlex.append hlex' hstop
    rw [← String.toList_append] at hwhole
    exact isNative_of_lexes hwhole (hpasses 0 us (hwrites.native hadmitted))

theorem isInner_empty : IsInner "" where
  plain := .nil
  passes := ⟨[], .nil false, .nil⟩

theorem isInner_compile (h : compile source = .ok compiled) (hsafe : IsSafeSource source)
    (hplain : IsUnfiltered source) : IsInner compiled.text := by
  cases hblank : allBlank source with
  | true =>
    rw [Transform.compile_blank hblank h]
    exact isInner_empty
  | false =>
    obtain ⟨e, he⟩ := exists_parsed hblank h
    obtain ⟨hspelled, -⟩ := parse_isSpelled he
    obtain ⟨base, hbase, htext⟩ := compile_ok_unfiltered he h (hplain e he)
    refine ⟨plain_compile h fun e he => (hsafe e he).filters, ?_⟩
    rw [← htext]
    exact (generate_parses e.expression hbase (hsafe e he).expression hspelled).admitted.passes

end Sources

/-! ## Calls of helpers -/

namespace IsInner

variable {code : String}

theorem isSound (h : IsInner code) (htrim : trim code.toList = code.toList) : IsSound code := by
  obtain ⟨ts, hlex, hpasses⟩ := h.passes
  exact ⟨htrim, h.plain, isNative_of_lexes hlex (hpasses.native 0)⟩

theorem keyed {key : Key} {t : Token} {s : String} (hs : IsPlainCode s) (hlex : Lexes false s.toList [t])
    (hkey : key.WrittenBy t) (hcode : IsInner code) : IsInner (s ++ ":" ++ code) := by
  obtain ⟨ts, hts, hpasses⟩ := hcode.passes
  exact ⟨plain_append (plain_append hs (plain_fixed (by decide))) hcode.plain, _,
    hlex.join (p := .colon) hts (by decide) (.inl rfl), .keyed hkey hpasses⟩

theorem joined {sep : String} (hsep : sep = "," ∨ sep = ", ") {texts : List String}
    (h : ∀ text ∈ texts, IsInner text) : IsInner (joinWith sep texts) := by
  have hplain : IsPlainCode sep := plain_fixed (by rcases hsep with rfl | rfl <;> decide)
  refine ⟨plain_joinWith hplain fun text htext => (h text htext).plain, ?_⟩
  induction texts with
  | nil => exact isInner_empty.passes
  | cons text texts ih =>
    rw [List.forall_mem_cons] at h
    cases texts with
    | nil => exact h.1.passes
    | cons next texts =>
      obtain ⟨ts, hts, hfirst⟩ := h.1.passes
      obtain ⟨us, hus, hrest⟩ := ih h.2
      refine ⟨ts ++ .punct .comma :: us, ?_,
        hfirst.append (.punct ⟨fun _ => rfl, rfl⟩ rfl hrest)⟩
      rcases hsep with rfl | rfl
      · simpa [joinWith, Punct.text] using hts.mark (p := .comma) hus (by decide) (.inl rfl)
      · simpa [joinWith, Punct.text] using hts.mark (p := .comma) hus.space (by decide) (.inl rfl)

theorem call {name : String} (hname : isName name = true) {texts : List String}
    (h : ∀ text ∈ texts, IsInner text) : IsInner (name ++ "(" ++ joinWith ", " texts ++ ")") := by
  have hinner := joined (.inr rfl) h
  obtain ⟨ts, hts, hpasses⟩ := hinner.passes
  refine ⟨?_, _, (lexes_name hname).enclosed (o := .lparen) (c := .rparen) hts rfl rfl,
    .ident name (.enclosed .round hpasses)⟩
  exact plain_append (plain_append (plain_append (plain_word (isWord_of_isName hname))
    (plain_fixed (by decide))) hinner.plain) (plain_fixed (by decide))

theorem object {fields : List String} (h : ∀ field ∈ fields, IsInner field) :
    IsInner ("\x7b" ++ joinWith "," fields ++ "\x7d") := by
  have hinner := joined (.inl rfl) h
  obtain ⟨ts, hts, hpasses⟩ := hinner.passes
  exact ⟨plain_braces hinner.plain, _, hts.between (o := .lbrace) (c := .rbrace) rfl rfl,
    .enclosed .curly hpasses⟩

end IsInner

theorem isInner_name {name : String} (h : isName name = true) : IsInner name :=
  ⟨plain_word (isWord_of_isName h), _, lexes_name h, .ident name .nil⟩

theorem isInner_quote (s : String) : IsInner (quote s) :=
  ⟨plain_quote s, _, lexes_quote s false, .literal (.string s) .nil⟩

theorem isInner_true : IsInner "true" :=
  ⟨plain_fixed (by decide), _, lexes_word (by decide) false, .literal (.boolean true) .nil⟩

theorem isInner_styleObject (entries : List (String × String)) :
    IsInner (Markup.styleObject entries) := by
  apply IsInner.object
  intro field hfield
  obtain ⟨⟨name, value⟩, -, rfl⟩ := List.mem_map.1 hfield
  exact @IsInner.keyed _ (.string default name) _ _ (plain_quote name) (lexes_quote name false) rfl
    (isInner_quote value)

theorem isSound_call {name : String} (hname : isName name = true) {texts : List String}
    (h : ∀ text ∈ texts, IsInner text) : IsSound (name ++ "(" ++ joinWith ", " texts ++ ")") := by
  apply (IsInner.call hname h).isSound
  rw [String.append_assoc]
  exact (framed_joined (framed_word (isWord_of_isName hname)) (by decide)
    (endsVisible_behind ⟨_, rfl, by decide⟩ _)).trim_eq

/-! ## Texts that are no code -/

theorem scan_braced {d : Char} (hd : d = '{' ∨ d = '=') (rest : List Char) :
    ∃ q more, scan d rest = .token (.punct q) more ∧ q ≠ .lbracket ∧ q ≠ .rbrace := by
  have hplain : scan d rest = scanPunct (d :: rest) := by
    rcases hd with rfl | rfl
    all_goals
      rw [scan_plain ⟨by decide, by decide, by decide, by decide⟩,
        scanNumber?_none (by decide) (fun h => absurd h (by decide)), Option.getD_none]
  have hsome : (Punct.all.find? (·.text.toList.isPrefixOf (d :: rest))).isSome := by
    rw [List.find?_isSome]
    rcases hd with rfl | rfl
    · exact ⟨.lbrace, by decide, by simp [Punct.text]⟩
    · exact ⟨.assign, by decide, by simp [Punct.text]⟩
  obtain ⟨q, hq⟩ := Option.isSome_iff_exists.1 hsome
  have hstart := List.find?_some hq
  refine ⟨q, q.text.length - 1, by rw [hplain, scanPunct, hq], ?_, ?_⟩
  · rintro rfl
    rcases hd with rfl | rfl <;> simp [Punct.text] at hstart
  · rintro rfl
    rcases hd with rfl | rfl <;> simp [Punct.text] at hstart

theorem tokens_braced {d : Char} (hd : d = '{' ∨ d = '=') {rest : List Char} {ts : List Lexeme}
    (h : tokenizeFrom 0 0 ('{' :: d :: rest) = .ok ts) :
    ∃ a b q us, ts = ⟨.punct .lbrace, a⟩ :: ⟨.punct q, b⟩ :: us ∧ q ≠ .lbracket ∧ q ≠ .rbrace := by
  have hfind : Punct.all.find? (·.text.toList.isPrefixOf ('{' :: d :: rest)) = some .lbrace :=
    find?_punct (p := .lbrace) (by simp [Punct.successors])
  have hfirst : scan '{' (d :: rest) = .token (.punct .lbrace) 0 := by
    rw [scan_plain ⟨by decide, by decide, by decide, by decide⟩,
      scanNumber?_none (by decide) (fun h => absurd h (by decide)), Option.getD_none, scanPunct,
      hfind]
    rfl
  obtain ⟨q, more, hscan, hq⟩ := scan_braced hd rest
  have hseparator : isSeparator d = false := by
    rcases hd with rfl | rfl <;> decide
  rw [tokenizeFrom, if_neg (by decide), hfirst] at h
  obtain ⟨us, hus, hts⟩ := bind_eq_ok.1 h
  rw [tokenizeFrom, hseparator, if_neg Bool.false_ne_true, hscan] at hus
  obtain ⟨vs, -, hus⟩ := bind_eq_ok.1 hus
  obtain rfl := Except.ok.inj hts
  obtain rfl := Except.ok.inj hus
  exact ⟨_, _, q, vs, rfl, hq⟩

theorem parsePrimary_braced (s : Setting) (n : Nat) {a b : Span} {q : Punct} (hopen : q ≠ .lbracket)
    (hclose : q ≠ .rbrace) (ts : List Lexeme) :
    ∃ stop, parsePrimary s n (⟨.punct .lbrace, a⟩ :: ⟨.punct q, b⟩ :: ts) = .error stop := by
  have hproperty : ∀ m, ∃ stop, parseProperty s.inner m (⟨.punct q, b⟩ :: ts) = .error stop := by
    intro m
    cases m with
    | zero => exact ⟨_, by rw [parseProperty]⟩
    | succ m =>
      refine ⟨s.inner.unexpected .propertyKey (⟨.punct q, b⟩ :: ts), ?_⟩
      rw [parseProperty] <;> simp [hopen]
  cases n with
  | zero => exact ⟨_, by rw [parsePrimary]⟩
  | succ n =>
    cases n with
    | zero => exact ⟨_, by rw [parsePrimary, parseProperties]; rfl⟩
    | succ n =>
      obtain ⟨stop, hstop⟩ := hproperty n
      refine ⟨stop, ?_⟩
      rw [parsePrimary, parseProperties, startsWith, if_neg (by simpa using hclose.symm), hstop]
      rfl

theorem parseExpr_braced (s : Setting) (n : Nat) {a b : Span} {q : Punct} (hopen : q ≠ .lbracket)
    (hclose : q ≠ .rbrace) (ts : List Lexeme) :
    ∃ stop, parseExpr s (n + 4) (⟨.punct .lbrace, a⟩ :: ⟨.punct q, b⟩ :: ts) = .error stop := by
  obtain ⟨stop, hstop⟩ := parsePrimary_braced s n (a := a) (b := b) hopen hclose ts
  refine ⟨stop, ?_⟩
  rw [parseExpr, parseBinary, parseUnary]
  dsimp only [Token.unaryOp?]
  rw [parseMember, hstop]
  rfl

theorem not_parse_braced {d : Char} (hd : d = '{' ∨ d = '=') (rest : List Char) (e : Piped) :
    parse (String.ofList ('{' :: d :: rest)) ≠ .ok e := by
  intro h
  rw [parse, runParser, mapError_eq_ok, String.toList_ofList] at h
  obtain ⟨ts, hts, h⟩ := bind_eq_ok.1 h
  obtain ⟨a, b, q, us, rfl, hopen, hclose⟩ := tokens_braced hd (mapError_eq_ok.1 hts)
  obtain ⟨_, h, -⟩ := bind_eq_ok.1 h
  obtain ⟨_, hnode, -⟩ := bind_eq_ok.1 h
  have hfuel : fuelFor ('{' :: d :: rest) = 16 * (rest.length + 3) + 12 + 4 := by
    simp only [fuelFor, List.length_cons]
    omega
  obtain ⟨stop, hstop⟩ := parseExpr_braced _ _ (a := a) (b := b) hopen hclose us
  rw [hfuel, hstop] at hnode
  cases hnode

end VueToSan.Expr
