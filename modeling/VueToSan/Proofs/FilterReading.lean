import VueToSan.Proofs.CodeReading
import VueToSan.Proofs.ParseWritten

/-!
# Filters behind code

The code of a filter holds a mark for the piped value. The mark is made of identifier characters
only, so that it stands once in the code, at its start, when neither the filter's name nor an
argument holds it. Putting the value in then writes the filter behind the value.
-/

namespace VueToSan.Expr

open VueToSan.Text

/-! ## Replacing a word at the start -/

theorem replaceFrom_skip (word new body rest : List Char) :
    replaceFrom word new body.length (body ++ rest) = replaceFrom word new 0 rest := by
  induction body with
  | nil => rfl
  | cons c body ih => rw [List.length_cons, List.cons_append, replaceFrom, ih]

theorem replaceFrom_of_not_infix {word new cs : List Char} (h : ¬word <:+: cs) :
    replaceFrom word new 0 cs = cs := by
  induction cs with
  | nil => rfl
  | cons c cs ih =>
    rw [List.infix_cons_iff, not_or] at h
    rw [replaceFrom, if_neg (by simpa using h.1), ih h.2]

theorem replace_word {word : List Char} (hword : word ≠ []) (new rest : List Char) :
    replace word new (word ++ rest) = new ++ replace word new rest := by
  cases word with
  | nil => contradiction
  | cons c word =>
    have hpre : (c :: word).isPrefixOf (c :: (word ++ rest)) = true := by
      simp
    rw [replace, List.cons_append, replaceFrom, if_pos hpre, List.length_cons,
      Nat.add_sub_cancel, replaceFrom_skip, replace]

theorem replace_head {word rest : List Char} (hword : word ≠ []) (h : ¬word <:+: rest)
    (new : List Char) : replace word new (word ++ rest) = new ++ rest := by
  rw [replace_word hword, replace, replaceFrom_of_not_infix h]

theorem prefix_of_not_mem {word a b : List Char} {c : Char} (hc : c ∉ word)
    (h : word <+: a ++ c :: b) : word <+: a := by
  rcases List.prefix_or_prefix_of_prefix h (List.prefix_append a (c :: b)) with hword | ⟨tail, rfl⟩
  · exact hword
  · rw [List.prefix_append_right_inj] at h
    cases tail with
    | nil => rw [List.append_nil]
    | cons d tail =>
      obtain ⟨rfl, -⟩ := List.cons_prefix_cons.1 h
      exact absurd (by simp) hc

theorem not_infix_append_cons {word a b : List Char} {c : Char} (hc : c ∉ word)
    (ha : ¬word <:+: a) (hb : ¬word <:+: b) : ¬word <:+: a ++ c :: b := by
  induction a with
  | nil =>
    rw [List.nil_append, List.infix_cons_iff]
    rintro (hpre | hin)
    · have hnil := prefix_of_not_mem (a := []) hc hpre
      exact ha hnil.isInfix
    · exact hb hin
  | cons d a ih =>
    rw [List.cons_append, List.infix_cons_iff]
    rintro (hpre | hin)
    · exact ha (prefix_of_not_mem (a := d :: a) hc hpre).isInfix
    · exact ih (fun h => ha (List.infix_cons h)) hin

/-! ## The mark in the code of a filter -/

def Marked (cs : List Char) : Prop := filterMark.toList <:+: cs

theorem not_mem_filterMark {c : Char} (h : c ∈ [' ', '|', '(', ',', ')']) :
    c ∉ filterMark.toList :=
  forall_of_all (P := (· ∉ filterMark.toList)) (by decide) c h

theorem filterMark_ne_nil : filterMark.toList ≠ [] := by
  decide

theorem not_marked_nil : ¬Marked [] := by
  rw [Marked, List.infix_nil]
  exact filterMark_ne_nil

theorem not_marked_cons {c : Char} {cs : List Char} (hc : c ∈ [' ', '|', '(', ',', ')'])
    (h : ¬Marked cs) : ¬Marked (c :: cs) :=
  not_infix_append_cons (a := []) (not_mem_filterMark hc) not_marked_nil h

theorem not_marked_joinWith {texts : List String} (h : ∀ t ∈ texts, ¬Marked t.toList) :
    ¬Marked (joinWith ", " texts).toList := by
  induction texts with
  | nil => exact not_marked_nil
  | cons s texts ih =>
    rw [List.forall_mem_cons] at h
    cases texts with
    | nil => exact h.1
    | cons t texts =>
      have hjoin : (joinWith ", " (s :: t :: texts)).toList =
          s.toList ++ ',' :: ' ' :: (joinWith ", " (t :: texts)).toList := by
        simp [joinWith]
      rw [hjoin]
      exact not_infix_append_cons (not_mem_filterMark (by simp)) h.1
        (not_marked_cons (by simp) (ih h.2))

theorem mem_generateList {es : List Node} {texts : List String} (h : generateList es = .ok texts) :
    ∀ t ∈ texts, ∃ e ∈ es, ∃ code, generate e = .ok code ∧ t = code.text := by
  induction es generalizing texts with
  | nil =>
    obtain rfl := Except.ok.inj h
    simp
  | cons e es ih =>
    simp only [generateList, bind_eq_ok, pure_eq_ok, Except.ok.injEq] at h
    obtain ⟨code, hcode, rest, hrest, rfl⟩ := h
    rw [List.forall_mem_cons]
    refine ⟨⟨e, by simp, code, hcode, rfl⟩, fun t ht => ?_⟩
    obtain ⟨e', he', code', hcode', rfl⟩ := ih hrest t ht
    exact ⟨e', by simp [he'], code', hcode', rfl⟩

/-! ## Reading filters -/

inductive WritesFilters : List Filter → List Token → Prop where
  | nil : WritesFilters [] []
  | bare {f : Filter} {fs : List Filter} {ts : List Token} : f.arguments = [] →
      WritesFilters fs ts → WritesFilters (f :: fs) (.punct .pipe :: .ident f.name :: ts)
  | call {f : Filter} {fs : List Filter} {us ts : List Token} :
      Writes true (.items f.arguments) us → WritesFilters fs ts →
      WritesFilters (f :: fs)
        (.punct .pipe :: .ident f.name :: .punct .lparen :: (us ++ .punct .rparen :: ts))

theorem WritesFilters.startsWith_lparen {fs : List Filter} {ts : List Lexeme}
    (h : WritesFilters fs (ts.map (·.token))) : startsWith .lparen ts = false := by
  generalize hts : ts.map (·.token) = tokens at h
  cases h with
  | nil =>
    rw [List.map_eq_nil_iff.1 hts]
    rfl
  | bare _ _ =>
    obtain ⟨a, us, rfl, -⟩ := exists_firstLexeme hts
    rfl
  | call _ _ =>
    obtain ⟨a, us, rfl, -⟩ := exists_firstLexeme hts
    rfl

theorem parseFilters_of_writes {s : Setting} {fs : List Filter} {tokens : List Token}
    (h : WritesFilters fs tokens) {ts : List Lexeme} (hts : ts.map (·.token) = tokens) {n : Nat}
    (hn : 8 * ts.length + 3 ≤ n) :
    ∃ fs', fs'.map Filter.unlocated = fs.map Filter.unlocated ∧
      parseFilters s n ts = .ok (fs', []) := by
  obtain ⟨n, rfl⟩ : ∃ m, n = m + 1 := ⟨n - 1, by omega⟩
  induction h generalizing ts n with
  | nil =>
    rw [List.map_eq_nil_iff.1 hts]
    exact ⟨[], rfl, rfl⟩
  | @bare f fs tokens hf hfs ih =>
    obtain ⟨a, us, rfl, hus⟩ := exists_firstLexeme hts
    obtain ⟨b, vs, rfl, hvs⟩ := exists_firstLexeme hus
    simp only [List.length_cons] at hn
    obtain ⟨n, rfl⟩ : ∃ m, n = m + 1 := ⟨n - 1, by omega⟩
    obtain ⟨fs', hfs', hrun⟩ := ih hvs n (by omega)
    have hparen : startsWith .lparen vs = false := (hvs ▸ hfs).startsWith_lparen
    refine ⟨⟨f.name, [], s.location ⟨a.start, b.stop⟩⟩ :: fs', ?_, ?_⟩
    · simp [Filter.unlocated, hfs', hf]
    · simp [parseFilters, hparen, hrun]
  | @call f fs items tokens hargs hfs ih =>
    obtain ⟨a, us, rfl, hus⟩ := exists_firstLexeme hts
    obtain ⟨b, vs, rfl, hvs⟩ := exists_firstLexeme hus
    obtain ⟨c, ws, rfl, hws⟩ := exists_firstLexeme hvs
    obtain ⟨is, d, rest, rfl, rfl, hrest⟩ := exists_lexemeBehind hws
    simp only [List.length_cons, List.length_append] at hn
    obtain ⟨n, rfl⟩ : ∃ m, n = m + 1 := ⟨n - 1, by omega⟩
    obtain ⟨fs', hfs', hrun⟩ := ih hrest n (by omega)
    have hread : ReadsItems s.inner f.arguments is := hargs.read s.inner rfl is rfl
    obtain ⟨es, hes, hitems⟩ := hread .rparen (by simp) d rest (n + 1) (by omega)
    refine ⟨⟨f.name, es, s.location ⟨a.start, d.stop⟩⟩ :: fs', ?_, ?_⟩
    · simp [Filter.unlocated, hfs', hes]
    · simp [parseFilters, startsWith_punct, hitems, mark_punct, hrun]

theorem WritesFilters.ends {fs : List Filter} {ts : List Lexeme}
    (h : WritesFilters fs (ts.map (·.token))) :
    Ends false 0 ts ∧ startsWith .question ts = false := by
  have hbar : ∀ a us, Ends false 0 (⟨.punct .pipe, a⟩ :: us) := by
    refine fun a us => ⟨rfl, fun b hb => ?_⟩
    cases hb
  generalize hts : ts.map (·.token) = tokens at h
  cases h with
  | nil =>
    rw [List.map_eq_nil_iff.1 hts]
    exact ⟨trivial, rfl⟩
  | bare _ _ =>
    obtain ⟨a, us, rfl, -⟩ := exists_firstLexeme hts
    exact ⟨hbar a us, rfl⟩
  | call _ _ =>
    obtain ⟨a, us, rfl, -⟩ := exists_firstLexeme hts
    exact ⟨hbar a us, rfl⟩

/-! ## Writing filters -/

def FiltersRead (fs : List Filter) (text : String) : Prop :=
  Stops false text.toList ∧ ∃ ts, Lexes false text.toList ts ∧ WritesFilters fs ts

theorem filtersRead_nil : FiltersRead [] "" := ⟨.nil false, [], .nil false, .nil⟩

theorem stops_space (dot : Bool) (rest : List Char) : Stops dot (' ' :: rest) := by
  intro c hc
  obtain rfl : ' ' = c := by simpa using hc
  exact ⟨by decide, fun h => by simp at h⟩

theorem lexes_bar {cs : List Char} {ts : List Token} (h : Lexes false cs ts) :
    Lexes false (' ' :: '|' :: ' ' :: cs) (.punct .pipe :: ts) := by
  have hbar := (Lexes.nil false).mark (p := .pipe) h.space (by decide)
    (.inr ⟨' ', cs, rfl, by decide⟩)
  exact hbar.space

theorem lexes_name {name : String} (h : isName name = true) :
    Lexes false name.toList [.ident name] := by
  rw [← wordToken_of_isName h]
  exact lexes_word (isWord_of_isName h) false

theorem FiltersRead.bare {f : Filter} {fs : List Filter} {text : String} (h : FiltersRead fs text)
    (hname : isName f.name = true) (hargs : f.arguments = []) :
    FiltersRead (f :: fs) (" | " ++ f.name ++ text) := by
  obtain ⟨hstop, ts, hlex, hwrites⟩ := h
  have htext : (" | " ++ f.name ++ text).toList =
      ' ' :: '|' :: ' ' :: (f.name.toList ++ text.toList) := by
    simp
  refine ⟨htext ▸ stops_space false _, .punct .pipe :: .ident f.name :: ts, ?_, .bare hargs hwrites⟩
  rw [htext]
  exact lexes_bar ((lexes_name hname).append hlex hstop)

theorem FiltersRead.call {f : Filter} {fs : List Filter} {text inner : String}
    (h : FiltersRead fs text) (hname : isName f.name = true)
    (hargs : ReadsAs false inner (.items f.arguments)) :
    FiltersRead (f :: fs) (" | " ++ f.name ++ ("(" ++ inner ++ ")") ++ text) := by
  obtain ⟨hstop, ts, hlex, hwrites⟩ := h
  obtain ⟨us, hinner, hitems⟩ := hargs
  have htext : (" | " ++ f.name ++ ("(" ++ inner ++ ")") ++ text).toList =
      ' ' :: '|' :: ' ' :: (f.name.toList ++ ('(' :: (inner.toList ++ (')' :: text.toList)))) := by
    simp
  refine ⟨htext ▸ stops_space false _, _, ?_, .call (hitems true) hwrites⟩
  rw [htext]
  have hclose := hinner.mark (p := .rparen) hlex (by decide) (.inl rfl)
  have hopen := (lexes_name hname).mark (p := .lparen) hclose (by decide) (.inl rfl)
  exact lexes_bar hopen

theorem filterCode_ok {f : Filter} {text : String} (h : filterCode f = .ok text) :
    ∃ args, generateList f.arguments = .ok args ∧
      text = filterMark ++ (" | " ++ f.name ++
        if f.arguments.isEmpty then "" else "(" ++ joinWith ", " args ++ ")") := by
  simp only [filterCode, bind_eq_ok, pure_eq_ok, Except.ok.injEq] at h
  obtain ⟨args, hargs, rfl⟩ := h
  exact ⟨args, hargs, by simp only [String.append_assoc]⟩

theorem not_marked_filter {f : Filter} {args : List String} (hf : f.isUnmarked)
    (hargs : generateList f.arguments = .ok args) :
    ¬Marked (" | " ++ f.name ++
      if f.arguments.isEmpty then "" else "(" ++ joinWith ", " args ++ ")").toList := by
  have htexts : ∀ t ∈ args, ¬Marked t.toList := by
    intro t ht
    obtain ⟨e, he, code, hcode, rfl⟩ := mem_generateList hargs t ht
    exact hf.2 e he code hcode
  have hbar : ∀ cs, ¬Marked cs → ¬Marked (' ' :: '|' :: ' ' :: cs) := fun cs hcs =>
    not_marked_cons (by simp) (not_marked_cons (by simp) (not_marked_cons (by simp) hcs))
  split_ifs
  · have htext : (" | " ++ f.name ++ "").toList = ' ' :: '|' :: ' ' :: f.name.toList := by simp
    rw [htext]
    exact hbar _ hf.1
  · have htext : (" | " ++ f.name ++ ("(" ++ joinWith ", " args ++ ")")).toList =
        ' ' :: '|' :: ' ' ::
          (f.name.toList ++ '(' :: ((joinWith ", " args).toList ++ ')' :: [])) := by
      simp
    rw [htext]
    have hclose := not_infix_append_cons (not_mem_filterMark (c := ')') (by simp))
      (not_marked_joinWith htexts) not_marked_nil
    exact hbar _ (not_infix_append_cons (not_mem_filterMark (by simp)) hf.1 hclose)

theorem applyFilters_cons {f : Filter} {fs : List Filter} {code result : String}
    (h : applyFilters code (f :: fs) = .ok result) (hf : f.isUnmarked) :
    ∃ args, generateList f.arguments = .ok args ∧
      applyFilters (code ++ (" | " ++ f.name ++
        if f.arguments.isEmpty then "" else "(" ++ joinWith ", " args ++ ")")) fs = .ok result := by
  simp only [applyFilters, bind_eq_ok] at h
  obtain ⟨applied, happlied, hrest⟩ := h
  obtain ⟨args, hargs, rfl⟩ := filterCode_ok happlied
  refine ⟨args, hargs, ?_⟩
  rw [String.toList_append, replace_head filterMark_ne_nil (not_marked_filter hf hargs)] at hrest
  rw [← hrest, ← String.toList_append, String.ofList_toList]

/-- Filters are written one behind the other, and read as their normal forms. -/
theorem applyFilters_reads {fs : List Filter} {code result : String}
    (h : applyFilters code fs = .ok result) (hspelled : ∀ f ∈ fs, f.isSpelled = true)
    (hlegible : ∀ f ∈ fs, areLegible f.arguments = true) (hmarks : ∀ f ∈ fs, f.isUnmarked) :
    ∃ text, result = code ++ text ∧ FiltersRead (fs.map (·.normal)) text := by
  induction fs generalizing code with
  | nil =>
    obtain rfl := Except.ok.inj h
    exact ⟨"", by rw [String.append_empty], filtersRead_nil⟩
  | cons f fs ih =>
    rw [List.forall_mem_cons] at hspelled hlegible hmarks
    obtain ⟨args, hargs, hrest⟩ := applyFilters_cons h hmarks.1
    obtain ⟨text, rfl, hread⟩ := ih hrest hspelled.2 hlegible.2 hmarks.2
    have hf := hspelled.1
    rw [Filter.isSpelled, Bool.and_eq_true] at hf
    refine ⟨_, String.append_assoc .., ?_⟩
    rw [List.map_cons]
    split_ifs with hempty
    · rw [List.isEmpty_iff] at hempty
      rw [String.append_empty]
      exact hread.bare hf.1 (by simp [Filter.normal, hempty, normalList])
    · have hitems := readsAs_items (generateList_reads f.arguments hargs hlegible.1 hf.2)
      exact FiltersRead.call (f := f.normal) hread hf.1 hitems

end VueToSan.Expr
