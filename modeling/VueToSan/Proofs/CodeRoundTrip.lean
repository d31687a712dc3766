import VueToSan.Proofs.FilterReading

/-!
# Compiled code reads back

The code of a source, parsed again, is the normal form of the parsed source.
-/

namespace VueToSan.Expr

open VueToSan.Text

/-! ## Blank sources -/

theorem visible_of_scan {c : Char} {cs : List Char} {t : Token} {more : Nat}
    (h : scan c cs = .token t more) : 33 ≤ c.toNat ∧ c.toNat ≤ 126 := by
  by_cases hstart : isIdentStart c = true
  · exact visible_of_isIdentStart hstart
  by_cases hplain : IsPlainStart c
  · rw [scan_plain hplain] at h
    by_cases hdigit : isDigit c = true
    · rw [isDigit_iff] at hdigit
      omega
    by_cases hdot : c = '.'
    · subst hdot
      decide
    rw [scanNumber?_none (by simpa using hdigit) (fun hc => absurd hc hdot), Option.getD_none,
      scanPunct] at h
    split at h
    · rename_i p hp
      have hpre : p.text.toList <+: c :: cs := by simpa using List.find?_some hp
      obtain ⟨d, ds, htext, -, hvisible, -⟩ := p.text_cases
      rw [htext, List.cons_prefix_cons] at hpre
      exact hpre.1 ▸ hvisible
    · cases h
  -- What is left are the three quotes.
  by_cases hsingle : c = '\x27'
  · subst hsingle
    decide
  by_cases hdouble : c = '\x22'
  · subst hdouble
    decide
  by_cases hback : c = '\x60'
  · subst hback
    decide
  exact absurd ⟨by simpa using hstart, hsingle, hdouble, hback⟩ hplain

theorem tokenizeFrom_blank {cs : List Char} (h : ∀ c ∈ cs, isBlank c = true) {pos : Nat}
    {ts : List Lexeme} (hts : tokenizeFrom pos 0 cs = .ok ts) : ts = [] := by
  induction cs generalizing pos with
  | nil => exact (Except.ok.inj hts).symm
  | cons c cs ih =>
    rw [List.forall_mem_cons] at h
    rw [tokenizeFrom] at hts
    split at hts
    · exact ih h.2 hts
    · split at hts
      · rename_i t more hscan
        rw [isBlank_of_visible (visible_of_scan hscan)] at h
        cases h.1
      · cases hts
      · cases hts

theorem allBlank_of_parse {source : String} {e : Piped} (h : parse source = .ok e) :
    allBlank source = false := by
  rw [Bool.eq_false_iff]
  intro hblank
  rw [allBlank, List.all_eq_true] at hblank
  simp only [parse, runParser, mapError_eq_ok, bind_eq_ok] at h
  obtain ⟨ts, hts, ⟨piped, rest⟩, hpiped, -⟩ := h
  obtain rfl := tokenizeFrom_blank hblank hts
  simp only [parsePiped, bind_eq_ok] at hpiped
  obtain ⟨⟨expression, middle⟩, hexpression, -⟩ := hpiped
  obtain ⟨n, hn⟩ : ∃ n, fuelFor source.toList = n + 5 := ⟨fuelFor source.toList - 5, by
    unfold fuelFor
    omega⟩
  rw [hn, parseExpr_nil] at hexpression
  cases hexpression

/-! ## Whole sources -/

theorem tokenize_of_lexes {text : String} {ts : List Token} (h : Lexes false text.toList ts) :
    ∃ ls : List Lexeme, ls.map (·.token) = ts ∧ tokenize text 0 = .ok ls := by
  obtain ⟨ls, hls, htokens⟩ := h [] (.nil false) 0
  refine ⟨ls, hls, ?_⟩
  rw [List.append_nil] at htokens
  rw [tokenize, htokens]
  simp [tokenizeFrom, Except.map]

theorem parse_of_reads {e : Node} {fs : List Filter} {base text : String}
    (he : ReadsAs false base (.placed .free e)) (hfs : FiltersRead fs text) :
    ∃ p, parse (base ++ text) = .ok p ∧
      p.unlocated = ⟨e.unlocated, fs.map Filter.unlocated, default⟩ := by
  obtain ⟨ts, hlex, hwrites⟩ := he
  obtain ⟨hstop, us, hlex', hwrites'⟩ := hfs
  have hwhole : Lexes false (base ++ text).toList (ts ++ us) := by
    rw [String.toList_append]
    exact hlex.append hlex' hstop
  obtain ⟨ls, hls, htokens⟩ := tokenize_of_lexes hwhole
  obtain ⟨as, bs, rfl, rfl, rfl⟩ := List.map_eq_append_iff.1 hls
  generalize hn : fuelFor (base ++ text).toList = n
  have hfuel : 8 * (as.length + bs.length) + 3 ≤ n := by
    have hlen := tokenizeFrom_length htokens
    rw [List.length_append] at hlen
    unfold fuelFor at hn
    omega
  have hread : ReadsExpr (.whole false (base ++ text)) e as := readsExpr_of_writes (hwrites false)
  obtain ⟨e', he', hrun⟩ := hread bs n hwrites'.ends.1 hwrites'.ends.2 (by omega)
  obtain ⟨fs', hfs', hrun'⟩ :=
    parseFilters_of_writes (s := .whole false (base ++ text)) hwrites' rfl (n := n) (by omega)
  obtain ⟨l, hpiped⟩ : ∃ l, parsePiped (.whole false (base ++ text)) n (as ++ bs) =
      .ok (⟨e', fs', l⟩, []) := by
    simp only [parsePiped, hrun, hrun', ok_bind]
    exact ⟨_, rfl⟩
  refine ⟨⟨e', fs', l⟩, runParser_ok htokens ?_, by simp [Piped.unlocated, he', hfs']⟩
  rw [hn, hpiped]

theorem parse_unfiltered {e : Node} {code : String} (h : ReadsAs false code (.placed .free e)) :
    ∃ p, parse code = .ok p ∧ p.filters = [] ∧ p.expression.unlocated = e.unlocated := by
  obtain ⟨p, hp, hsame⟩ := parse_of_reads h filtersRead_nil
  rw [String.append_empty] at hp
  exact ⟨p, hp, List.map_eq_nil_iff.1 (congrArg Piped.filters hsame),
    congrArg Piped.expression hsame⟩

theorem generatePiped_ok {e : Piped} {code : Code} (h : generatePiped e = .ok code) :
    ∃ base, generate e.expression = .ok base ∧
      applyFilters base.text e.filters = .ok code.text := by
  simp only [generatePiped, bind_eq_ok] at h
  obtain ⟨base, hbase, h⟩ := h
  refine ⟨base, hbase, ?_⟩
  split at h
  · rename_i hempty
    rw [List.isEmpty_iff.1 hempty, ← Except.ok.inj h]
    rfl
  · obtain ⟨text, htext, hcode⟩ := bind_eq_ok.1 h
    rw [htext, ← Except.ok.inj hcode]
    rfl

theorem compile_ok {source : String} {e : Piped} {compiled : Compiled}
    (hparse : parse source = .ok e) (h : compile source = .ok compiled) :
    ∃ base, generate e.expression = .ok base ∧
      applyFilters base.text e.filters = .ok compiled.text := by
  simp only [compile, allBlank_of_parse hparse, Bool.false_eq_true, if_false, bind_eq_ok,
    mapError_eq_ok] at h
  obtain ⟨parsed, hparsed, code, hcode, hok⟩ := h
  obtain rfl := Except.ok.inj (hparse.symm.trans hparsed)
  obtain rfl := Except.ok.inj hok
  exact generatePiped_ok hcode

theorem compile_ok_unfiltered {source : String} {e : Piped} {compiled : Compiled}
    (hparse : parse source = .ok e) (h : compile source = .ok compiled)
    (hfilters : e.filters = []) :
    ∃ base, generate e.expression = .ok base ∧ base.text = compiled.text := by
  obtain ⟨base, hbase, happly⟩ := compile_ok hparse h
  rw [hfilters] at happly
  exact ⟨base, hbase, Except.ok.inj happly⟩

theorem exists_parsed {source : String} {compiled : Compiled} (hblank : allBlank source = false)
    (h : compile source = .ok compiled) : ∃ e, parse source = .ok e := by
  simp only [compile, hblank, Bool.false_eq_true, if_false, bind_eq_ok, mapError_eq_ok] at h
  obtain ⟨e, he, -⟩ := h
  exact ⟨e, he⟩

/-- The code of a legible source is parsed to the normal form of the source. -/
theorem parse_compile {source : String} {e : Piped} {compiled : Compiled}
    (hparse : parse source = .ok e) (hcompile : compile source = .ok compiled)
    (hlegible : e.IsLegible) :
    ∃ p, parse compiled.text = .ok p ∧ p.unlocated = e.normal.unlocated := by
  obtain ⟨hspelled, hfilters⟩ := parse_isSpelled hparse
  obtain ⟨base, hbase, happly⟩ := compile_ok hparse hcompile
  have hcode := generate_reads e.expression hbase hlegible.expression hspelled
  obtain ⟨text, htext, hread⟩ :=
    applyFilters_reads happly hfilters hlegible.arguments hlegible.filters
  rw [htext]
  exact parse_of_reads hcode.whole hread

def sampleSource : String :=
  "a.b[c] - (x == 1 + 2 ? -4 - 1 : \x60n$\x7bd\x7d\x60) | f(\x7b[k]: !e, m\x7d, 'it') | g"

def sampleCode : String :=
  "a.b[c]-(x==(3)?(-5):('n'+d)) | f(_ex(_ocp([\x7bk:k,v:!e\x7d]),\x7bm:m\x7d), 'it') | g"

theorem sampleSource_compiled :
    ∃ e compiled, parse sampleSource = .ok e ∧ compile sampleSource = .ok compiled ∧ e.IsLegible ∧
      compiled.text = sampleCode ∧
      ∃ p, parse compiled.text = .ok p ∧ p.unlocated = e.normal.unlocated := by
  have hparse : (parse sampleSource).toOption.any (fun e => decide e.IsLegible) = true := by
    decide +kernel
  have hcompile : (compile sampleSource).toOption.map (·.text) = some sampleCode := by
    decide +kernel
  obtain ⟨e, he, hlegible⟩ := (Option.any_eq_true _ _).1 hparse
  obtain ⟨compiled, hcompiled, htext⟩ := Option.map_eq_some_iff.1 hcompile
  rw [toOption_eq_some] at he hcompiled
  have hlegible := of_decide_eq_true hlegible
  exact ⟨e, compiled, he, hcompiled, hlegible, htext, parse_compile he hcompiled hlegible⟩

end VueToSan.Expr
