import VueToSan.Proofs.CoveredTokens

/-!
# Parsing a part of a source

A parse depends on a source only by its tokens, so it can be repeated on any source that is cut into
the same tokens. The text under the test of a conditional is parsed to the test just when the
brackets in it match and no bar stands outside of them; with a bar outside it goes through a filter.
-/

namespace VueToSan.Expr

open VueToSan.Text

variable {source text : String}

theorem runParser_eq_ok {α : Type} {nested : Bool}
    {parser : Setting → Nat → List Lexeme → Except Stop (Followed α)} {value : α}
    (h : runParser nested parser source = .ok value) :
    ∃ ts, Lexed 0 source.toList ts ∧
      parser (.whole nested source) (fuelFor source.toList) ts = .ok (value, []) := by
  simp only [runParser, mapError_eq_ok, bind_eq_ok] at h
  obtain ⟨ts, hts, ⟨value, rest⟩, hvalue, _, hrest, hok⟩ := h
  obtain rfl := Except.ok.inj hok
  cases rest with
  | nil => exact ⟨ts, tokenizeFrom_eq_ok.1 hts, hvalue⟩
  | cons t rest => cases hrest

theorem Lexed.inSource {ts : List Lexeme} (h : Lexed 0 source.toList ts) (nested : Bool) :
    InOrder (Setting.whole nested source).lines.length ts := by
  have horder := h.inOrder
  rw [Nat.zero_add] at horder
  exact horder

theorem Lexed.fuel {pos : Nat} {cs : List Char} {ts : List Lexeme} (h : Lexed pos cs ts) :
    8 * textWeight ts + 5 ≤ fuelFor cs := by
  have hweight := h.textWeight_le
  unfold fuelFor
  omega

theorem textWeight_congr {ts us : List Lexeme} (h : us.map (·.token) = ts.map (·.token)) :
    textWeight us = textWeight ts := by
  have hweights := congrArg (List.map Token.weight) h
  rw [List.map_map, List.map_map] at hweights
  exact congrArg List.sum hweights

/-! ## Filters -/

theorem arguments_again {s : Setting} {n m : Nat} {ts us behind : List Lexeme} {b : Lexeme}
    {arguments : List Node} (s' : Setting)
    (h : parseItems s.inner .rparen n ts = .ok (arguments, b :: behind))
    (htokens : us.map (·.token) = ts.map (·.token)) (hm : 8 * textWeight ts ≤ m) :
    ∃ arguments' b' us', arguments'.map Node.unlocated = arguments.map Node.unlocated ∧
      us'.map (·.token) = behind.map (·.token) ∧ textWeight behind + 1 ≤ textWeight ts ∧
      parseItems s'.inner .rparen m us = .ok (arguments', ⟨b.token, b'⟩ :: us') := by
  obtain ⟨vs, rfl, hclosed, again⟩ := (ParsesAgain.all n).items s.inner .rparen ts _ _ h
  rw [List.map_append] at htokens
  obtain ⟨vs', b', us, rfl, hvs', hus⟩ := exists_lexemeBehind htokens
  have hb := one_le_weight b.token
  simp only [textWeight_cons, textWeight_append] at hm ⊢
  obtain ⟨arguments', harguments', hrun⟩ := again s'.inner vs' (⟨b.token, b'⟩ :: us) m
    ⟨fun _ => rfl, hclosed, hvs'⟩ (.inl rfl) (by omega)
  exact ⟨arguments', b', us, harguments', hus, by omega, hrun⟩

theorem filters_again {s : Setting} {n m : Nat} {ts us : List Lexeme} {fs : List Filter}
    (s' : Setting) (h : parseFilters s n ts = .ok (fs, []))
    (htokens : us.map (·.token) = ts.map (·.token))
    (hm : 8 * textWeight ts + 1 ≤ m) :
    ∃ fs', fs'.map Filter.unlocated = fs.map Filter.unlocated ∧
      parseFilters s' m us = .ok (fs', []) := by
  induction n generalizing ts us fs m with
  | zero =>
    rw [parseFilters] at h
    cases h
  | succ n ih =>
    obtain ⟨m, rfl⟩ : ∃ k, m = k + 1 := ⟨m - 1, by omega⟩
    generalize hfuel : n + 1 = fuel at h
    -- A filter with arguments, one without, a bar that no name follows, and the end.
    fun_cases parseFilters s fuel ts with
    | case1 => cases hfuel
    | case2 m' bar name span ts next hparen =>
      cases hfuel
      obtain ⟨a, ts, rfl⟩ := exists_of_startsWith hparen
      simp only [parseFilters, hparen, if_true, pure_eq_ok, ok_bind] at h
      obtain ⟨⟨arguments, behind⟩, harguments, h₁⟩ := bind_eq_ok.1 h
      rw [List.tail_cons] at harguments
      obtain ⟨⟨b, ts⟩, hclose, h₂⟩ := bind_eq_ok.1 h₁
      obtain rfl := mark_eq_ok hclose
      obtain ⟨⟨fs, behind⟩, hfilters, h₃⟩ := bind_eq_ok.1 h₂
      change parseFilters s n ts = _ at hfilters
      obtain ⟨rfl, rfl⟩ := Prod.mk.inj (Except.ok.inj h₃)
      obtain ⟨bar', us, rfl, htokens₁⟩ := exists_firstLexeme htokens
      obtain ⟨span', us, rfl, htokens₂⟩ := exists_firstLexeme htokens₁
      obtain ⟨a', us, rfl, htokens₃⟩ := exists_firstLexeme htokens₂
      simp only [textWeight_cons, weight_punct] at hm
      obtain ⟨arguments', b', us', harguments', hus, hweight, hrun⟩ :=
        arguments_again (m := m) s' harguments htokens₃ (by omega)
      obtain ⟨fs', hfs', hrunRest⟩ := ih (m := m) hfilters hus (by omega)
      refine ⟨⟨name, arguments', s'.location ⟨bar'.start, b'.stop⟩⟩ :: fs',
        by simp [Filter.unlocated, unlocatedList_eq_map, harguments', hfs'], ?_⟩
      simp [parseFilters, startsWith_punct, hrun, mark_punct, hrunRest]
    | case3 m' bar name span ts next hparen =>
      cases hfuel
      simp only [parseFilters, if_neg hparen, pure_eq_ok, ok_bind] at h
      obtain ⟨⟨fs, behind⟩, hfilters, h₁⟩ := bind_eq_ok.1 h
      change parseFilters s n ts = _ at hfilters
      obtain ⟨rfl, rfl⟩ := Prod.mk.inj (Except.ok.inj h₁)
      obtain ⟨bar', us, rfl, htokens₁⟩ := exists_firstLexeme htokens
      obtain ⟨span', us, rfl, hus⟩ := exists_firstLexeme htokens₁
      simp only [textWeight_cons, weight_punct] at hm
      obtain ⟨fs', hfs', hrunRest⟩ := ih (m := m) hfilters hus (by omega)
      have hparen' : startsWith .lparen us = false := by
        have hhead : us.head?.map (·.token) = ts.head?.map (·.token) := by
          rw [← List.head?_map, hus, List.head?_map]
        rw [startsWith_head hhead]
        exact Bool.eq_false_iff.2 hparen
      refine ⟨⟨name, [], s'.location ⟨bar'.start, span'.stop⟩⟩ :: fs',
        by simp [Filter.unlocated, hfs'], ?_⟩
      simp [parseFilters, hparen', hrunRest]
    | case4 m' bar ts hname =>
      cases hfuel
      simp only [parseFilters] at h
      cases h
    | case5 m' ts hbar =>
      cases hfuel
      simp only [parseFilters] at h
      obtain ⟨rfl, rfl⟩ := Prod.mk.inj (Except.ok.inj h)
      obtain rfl := List.map_eq_nil_iff.1 htokens
      exact ⟨[], rfl, rfl⟩

theorem eq_nil_of_filters {s : Setting} {n : Nat} {ts : List Lexeme}
    (h : parseFilters s n ts = .ok ([], [])) : ts = [] := by
  fun_cases parseFilters s n ts with
  | case1 => cases h
  | case2 m bar name span ts next hparen =>
    simp only [parseFilters, hparen, if_true, pure_eq_ok, ok_bind, bind_eq_ok] at h
    obtain ⟨_, -, _, -, _, -, hok⟩ := h
    cases hok
  | case3 m bar name span ts next hparen =>
    simp only [parseFilters, if_neg hparen, pure_eq_ok, ok_bind] at h
    obtain ⟨_, -, hok⟩ := bind_eq_ok.1 h
    cases hok
  | case4 m bar ts hname =>
    simp only [parseFilters] at h
    cases h
  | case5 m ts hbar =>
    simp only [parseFilters] at h
    exact (Prod.mk.inj (Except.ok.inj h)).2

/-! ## Other sources with the same tokens -/

theorem parse_eq_ok {p : Piped} (h : parse source = .ok p) :
    ∃ used behind, Lexed 0 source.toList (used ++ behind) ∧
      parseExpr (.whole false source) (fuelFor source.toList) (used ++ behind) =
        .ok (p.expression, behind) ∧
      Closed false used ∧
      parseFilters (.whole false source) (fuelFor source.toList) behind = .ok (p.filters, []) := by
  obtain ⟨ts, hts, hpiped⟩ := runParser_eq_ok h
  simp only [parsePiped, bind_eq_ok] at hpiped
  obtain ⟨⟨expression, behind⟩, hexpression, ⟨filters, rest⟩, hfilters, hok⟩ := hpiped
  obtain ⟨rfl, rfl⟩ := Prod.mk.inj (Except.ok.inj hok)
  obtain ⟨used, rfl, hused, -⟩ := (ParsesAgain.all _).expr _ ts expression behind hexpression
  exact ⟨used, behind, hts, hexpression, hused, hfilters⟩

theorem parse_of_parts {ts behind : List Lexeme} {e : Node} {fs : List Filter}
    (hts : Lexed 0 source.toList ts)
    (he : parseExpr (.whole false source) (fuelFor source.toList) ts = .ok (e, behind))
    (hfs : parseFilters (.whole false source) (fuelFor source.toList) behind = .ok (fs, [])) :
    ∃ p, parse source = .ok p ∧ p.unlocated = ⟨e.unlocated, fs.map Filter.unlocated, default⟩ := by
  let stop := (fs.getLast?.map (·.location.stop.offset)).getD e.location.stop.offset
  refine ⟨⟨e, fs, (Setting.whole false source).location ⟨e.location.start.offset, stop⟩⟩,
    runParser_ok hts.tokenizeFrom ?_, rfl⟩
  simp [parsePiped, he, hfs, stop]

theorem parse_again {other : String} {p : Piped} {ts us : List Lexeme}
    (h : parse source = .ok p) (hts : Lexed 0 source.toList ts) (hus : Lexed 0 other.toList us)
    (htokens : us.map (·.token) = ts.map (·.token)) :
    ∃ q, parse other = .ok q ∧ q.unlocated = p.unlocated := by
  obtain ⟨used, behind, hlexed, he, hclosed, hfs⟩ := parse_eq_ok h
  obtain rfl : ts = used ++ behind :=
    Except.ok.inj (hts.tokenizeFrom.symm.trans hlexed.tokenizeFrom)
  rw [List.map_append] at htokens
  obtain ⟨us₁, us₂, rfl, hus₁, hus₂⟩ := List.map_eq_append_iff.1 htokens
  obtain ⟨cut, hcut, -, again⟩ := (ParsesAgain.all _).expr _ _ _ _ he
  obtain rfl := List.append_cancel_right hcut
  have hfuel := hus.fuel
  have hweight : textWeight us₁ = textWeight used := textWeight_congr hus₁
  have hweight₂ : textWeight us₂ = textWeight behind := textWeight_congr hus₂
  rw [textWeight_append, hweight, hweight₂] at hfuel
  obtain ⟨e', he', hrun⟩ := again (.whole false other) us₁ us₂ (fuelFor other.toList)
    ⟨fun hflag => absurd hflag Bool.false_ne_true, hclosed, hus₁⟩
    (.inl (by rw [← List.head?_map, hus₂, List.head?_map])) (by omega)
  have hfilterFuel : 8 * textWeight behind + 1 ≤ fuelFor other.toList := by omega
  obtain ⟨fs', hfs', hrunFilters⟩ := filters_again (.whole false other) hfs hus₂ hfilterFuel
  obtain ⟨q, hq, hunlocated⟩ := parse_of_parts hus hrun hrunFilters
  refine ⟨q, hq, ?_⟩
  rw [hunlocated, he', hfs']
  rfl

theorem parse_trim {p : Piped} (h : parse source = .ok p) :
    ∃ q, parse (String.ofList (trim source.toList)) = .ok q ∧ q.unlocated = p.unlocated := by
  obtain ⟨used, behind, hlexed, -⟩ := parse_eq_ok h
  obtain ⟨start, htrim⟩ := hlexed.trim
  obtain ⟨us, htokens, hus⟩ := htrim.shift 0
  rw [← String.toList_ofList (l := trim source.toList)] at hus
  exact parse_again h hlexed hus htokens

theorem parse_covers_test {p : Piped} {l : Location} {test c a : Node} (h : parse source = .ok p)
    (hchoice : p.expression = .conditional l test c a) :
    ∃ used behind, Lexed 0 source.toList (used ++ behind) ∧ CoversPart test used := by
  obtain ⟨used, behind, hlexed, he, -, -⟩ := parse_eq_ok h
  obtain ⟨cut, hcut, -, -, htest⟩ :=
    (CoversTokens.all _).expr _ _ _ _ (hlexed.inSource false) he
  obtain rfl := List.append_cancel_right hcut
  exact ⟨used, behind, hlexed, htest l test c a hchoice⟩

/-- The text under the test of a conditional is parsed to the test if it can be parsed at all: if
its brackets match, and no bar outside of them sends it through a filter. -/
theorem parse_test {p : Piped} {l : Location} {test c a : Node} (h : parse source = .ok p)
    (hchoice : p.expression = .conditional l test c a) :
    (∃ q, parse (test.span.slice source) = .ok q ∧
        q.unlocated = ⟨test.unlocated, [], default⟩) ↔
      ∃ ts, tokenize (test.span.slice source) 0 = .ok ts ∧ Closed false ts := by
  -- The span of the test covers the tokens `core`, from which the test is parsed when they close.
  obtain ⟨used, behind, hlexed, pre, core, post, rfl, -, -, hcore, hspan, halone⟩ :=
    parse_covers_test h hchoice
  have hparts : Lexed 0 source.toList (pre ++ (core ++ (post ++ behind))) := by
    simpa using hlexed
  obtain ⟨start, hslice⟩ := hparts.slice hcore
  rw [← hspan] at hslice
  obtain ⟨us, htokens, hus⟩ := hslice.shift 0
  constructor
  · rintro ⟨q, hq, hunlocated⟩
    obtain ⟨used', behind', hlexed', -, hclosed, hfs⟩ := parse_eq_ok hq
    have hfilters : q.filters = [] := by
      simpa [Piped.unlocated] using congrArg Piped.filters hunlocated
    rw [hfilters] at hfs
    obtain rfl := eq_nil_of_filters hfs
    rw [List.append_nil] at hlexed'
    exact ⟨used', hlexed'.tokenizeFrom, hclosed⟩
  · rintro ⟨ts, hts, hclosed⟩
    obtain rfl : ts = us := Except.ok.inj (hts.symm.trans hus.tokenizeFrom)
    obtain ⟨s, n, e', rest, he', hrun⟩ := halone (hclosed.of_map htokens.symm).inside
    obtain ⟨cut, hcut, -, again⟩ := (ParsesAgain.all _).expr _ _ _ _ hrun
    obtain rfl := List.append_cancel_right hcut
    have hfuel := hus.fuel
    rw [textWeight_congr htokens] at hfuel
    obtain ⟨e'', he'', hrun'⟩ := again (.whole false (test.span.slice source)) ts [] _
      ⟨fun hflag => absurd hflag Bool.false_ne_true, hclosed.of_map htokens.symm, htokens⟩
      (.inr ⟨rfl, rfl⟩) hfuel
    rw [List.append_nil] at hrun'
    obtain ⟨q, hq, hunlocated⟩ := parse_of_parts hus hrun' (parseFilters_nil (by omega))
    exact ⟨q, hq, by rw [hunlocated, he'', he', List.map_nil]⟩

end VueToSan.Expr
