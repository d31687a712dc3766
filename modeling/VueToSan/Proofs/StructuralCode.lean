import VueToSan.Proofs.ArgumentCode
import VueToSan.Proofs.ParseableCode
import VueToSan.Proofs.StructuralSites
import VueToSan.Proofs.WrittenLoops

/-!
# Structural code in attributes

What is read of an attribute holds the structural code as it was generated if collapsing blanks and
resolving quotes do not change it, and is parsed as the code itself.
-/

namespace VueToSan.Transform

open VueToSan.Text VueToSan.Markup
open VueToSan.San (Verbatim Behind entity unescaped writtenValue)

variable {h h' : Head} {source : String} {compiled : Expr.Compiled}

/-! ## Names of attributes -/

theorem mem_splitOn {sep : Char} {cs piece : List Char} (h : piece ∈ splitOn sep cs) :
    ∀ c ∈ piece, c ∈ cs := by
  induction cs generalizing piece with
  | nil =>
    obtain rfl : piece = [] := by simpa [splitOn] using h
    simp
  | cons d cs ih =>
    rw [splitOn] at h
    split at h
    · rcases List.mem_cons.1 h with rfl | h
      · simp
      · exact fun c hc => List.mem_cons_of_mem d (ih h c hc)
    · split at h
      · obtain rfl : piece = [d] := by simpa using h
        simp
      · rename_i first pieces hpieces
        rw [hpieces] at ih
        rcases List.mem_cons.1 h with rfl | h
        · intro c hc
          rcases List.mem_cons.1 hc with rfl | hc
          · simp
          · exact List.mem_cons_of_mem d (ih (by simp) c hc)
        · exact fun c hc => List.mem_cons_of_mem d (ih (List.mem_cons_of_mem _ h) c hc)

theorem mem_splitModifiers {cs : List Char} {c : Char} (h : c ∈ (splitModifiers cs).1.toList) :
    c ∈ cs := by
  unfold splitModifiers at h
  split at h
  · cases h
  · rename_i name modifiers hsplit
    rw [String.toList_ofList] at h
    exact mem_splitOn (hsplit ▸ List.mem_cons_self) c h

theorem mem_of_stripStart? {word cs rest : List Char} (h : stripStart? word cs = some rest)
    {c : Char} (hc : c ∈ rest) : c ∈ cs := by
  rw [San.stripStart?_eq_some.1 h]
  exact List.mem_append_right word hc

theorem mem_listenerName {a : Attr} {c : Char} (h : c ∈ (listenerParts a).1.toList) :
    c ∈ a.name.toList := by
  have hmem := mem_splitModifiers h
  cases hname : listenerName? a.name with
  | none =>
    rw [hname] at hmem
    cases hmem
  | some cs =>
    rw [hname, Option.getD_some] at hmem
    rcases Option.or_eq_some_iff.1 (Option.orElse_eq_or.symm.trans hname) with hat | ⟨-, hon⟩
    · exact mem_of_stripStart? hat hmem
    · exact mem_of_stripStart? hon hmem

def Site.IsNamed (h : Head) : Site → Prop
  | test => True
  | branchTest => True
  | list => True
  | handler a => isAttrName a.name = true
  | model => True
  | sync key => isAttrName ((sync key).attr h) = true ∧ isValueless ((sync key).attr h) = false

theorem isAttrName_listener {a : Attr} (h : isAttrName a.name = true) :
    isAttrName ("on-" ++ (listenerParts a).1) = true ∧
      isValueless ("on-" ++ (listenerParts a).1) = false := by
  refine ⟨?_, ?_⟩
  · rw [isAttrName, Bool.and_eq_true, Bool.not_eq_true', List.all_eq_true]
    refine ⟨by simp, fun c hc => ?_⟩
    rw [String.toList_append, List.mem_append] at hc
    rcases hc with hc | hc
    · exact forall_of_all (P := fun c => San.isAttrNameChar c = true) (by decide) c hc
    · exact San.isAttrName_all h c (mem_listenerName hc)
  · rw [isValueless, beq_eq_false_iff_ne]
    intro helse
    have hhead : ("on-" ++ (listenerParts a).1).toList.head? = some 'o' := by
      rw [String.toList_append]
      rfl
    rw [helse] at hhead
    exact absurd hhead (by decide)

theorem Site.isAttrName_attr {site : Site} (hnamed : site.IsNamed h) :
    isAttrName (site.attr h) = true ∧ isValueless (site.attr h) = false := by
  cases site with
  | test => exact ⟨by rw [Site.attr]; decide, rfl⟩
  | branchTest => exact ⟨by rw [Site.attr]; decide, rfl⟩
  | list => exact ⟨by rw [Site.attr]; decide, rfl⟩
  | handler a => exact isAttrName_listener hnamed
  | model =>
    rw [Site.attr, modelAttr]
    split
    · exact ⟨rfl, rfl⟩
    · exact ⟨rfl, rfl⟩
  | sync key => exact hnamed

/-! ## Code in what is read -/

theorem getLast?_modifiers (ms : List String) :
    ∀ c ∈ (String.join (ms.map (· ++ ":"))).toList.getLast?, c = ':' := by
  induction ms with
  | nil => simp
  | cons m ms ih =>
    intro c hc
    rw [List.map_cons, String.join_cons, String.toList_append, List.getLast?_append] at hc
    rcases Option.or_eq_some_iff.1 hc with hrest | ⟨-, hmark⟩
    · exact ih c hrest
    · simpa using hmark.symm

theorem Site.last_front (site : Site) (h : Head) :
    ∀ c ∈ (site.front h).toList.getLast?, c ∈ ['(', ':', ' '] := by
  cases site with
  | handler a =>
    intro c hc
    simp [getLast?_modifiers _ c hc]
  | list => simp [Site.front]
  | _ => simp [Site.front]

theorem Site.first_back (site : Site) (h : Head) :
    ∀ c ∈ (site.back h).toList.head?, c ∈ [')', ' '] := by
  cases site <;> simp [Site.back]

theorem Site.front_guard (site : Site) (h : Head) :
    ∀ c ∈ (site.front h).toList.getLast?, c ∉ entity := fun c hc =>
  forall_of_all (P := (· ∉ entity)) (by decide) c (site.last_front h c hc)

theorem Site.back_guard (site : Site) (h : Head) :
    ∀ c ∈ (site.back h).toList.head?, c ∉ entity := fun c hc =>
  forall_of_all (P := (· ∉ entity)) (by decide) c (site.first_back h c hc)

theorem compile_blank (hblank : allBlank source = true)
    (hcompile : Expr.compile source = .ok compiled) : compiled = ⟨none, .plain ""⟩ := by
  rw [Expr.compile, if_pos hblank] at hcompile
  exact (Except.ok.inj hcompile).symm

theorem Site.infix_read (site : Site) (h : Head) (hcompile : Expr.compile source = .ok compiled)
    (hcode : Verbatim compiled.text.toList) :
    compiled.text.toList <:+: unescaped (writtenValue (site.value h compiled.text)) := by
  cases hblank : allBlank source with
  | true =>
    rw [compile_blank hblank hcompile]
    exact List.nil_infix
  | false =>
    have hframed := Expr.framed_compile hblank hcompile
    have hvalue : (site.value h compiled.text).toList =
        (site.front h).toList ++ (compiled.text.toList ++ (site.back h).toList) := by
      simp only [Site.value, String.toList_append, List.append_assoc]
    refine hcode.infix_read hframed (site.front_guard h) (site.back_guard h) ?_
    rw [writtenValue, hvalue]
    split
    · exact .inl rfl
    · exact .inr rfl

/-! ## Values that are read as they are -/

def KeyReads (h : Head) : Prop :=
  ∀ source key, h.key = some source → Expr.compile source = .ok key → key.isIdentifier →
    Verbatim key.text.toList ∧ ∃ p, Expr.parse key.text = .ok p

/-- The header of a loop is one of the target, and its list is told apart in it. -/
structure AdmitsList (h : Head) (source code : String) : Prop where
  item : ∀ l ∈ h.loop, San.isLoopName l.item = true
  index : ∀ l ∈ h.loop, ∀ i ∈ l.iterator1, San.isLoopName i = true
  key : KeyReads h
  code : San.mentionsTrackBy code.toList = false
  safe : ∀ e, Expr.parse source = .ok e → e.IsDotSafe
  unfiltered : ∀ e, Expr.parse source = .ok e → e.filters = []

/-- What the target takes at a site around the code: modifiers of letters, a property, and a header
of a loop. -/
def Site.Admits (h : Head) (source code : String) : Site → Prop
  | test => True
  | branchTest => True
  | list => AdmitsList h source code
  | handler a => ∀ m ∈ (listenerParts a).2, m ≠ "" ∧ ∀ c ∈ m.toList, isLetter c = true
  | model => True
  | sync key => stripStart? "on-".toList ((sync key).attr h).toList = none ∧
      stripStart? "s-".toList ((sync key).attr h).toList = none

theorem visible_loopNames {l : Loop} (hitem : San.isLoopName l.item = true)
    (hindex : ∀ i ∈ l.iterator1, San.isLoopName i = true) :
    ∀ c ∈ (loopNames l).toList, isBlank c = false ∧ c ≠ '&' := by
  have hvisible : ∀ name, San.isLoopName name = true →
      ∀ c ∈ name.toList, isBlank c = false ∧ c ≠ '&' := by
    intro name hname c hc
    rw [San.isLoopName, Bool.and_eq_true, List.all_eq_true] at hname
    refine ⟨San.isBlank_of_isNameChar (hname.2 c hc), ?_⟩
    rintro rfl
    exact absurd (hname.2 _ hc) (by decide)
  unfold loopNames
  split
  · rename_i index hiterator
    simp only [String.toList_append, List.forall_mem_append]
    exact ⟨⟨hvisible _ hitem, forall_of_all (by decide)⟩, hvisible _ (hindex index hiterator)⟩
  · exact hvisible _ hitem

theorem verbatim_modifiers {ms : List String}
    (h : ∀ m ∈ ms, m ≠ "" ∧ ∀ c ∈ m.toList, isLetter c = true) :
    Verbatim (String.join (ms.map (· ++ ":"))).toList := by
  apply San.verbatim_of_visible
  intro c hc
  simp only [String.toList_join, List.flatMap_map, String.toList_append, List.mem_flatMap,
    List.mem_append] at hc
  obtain ⟨m, hm, hc | hc⟩ := hc
  · have hletter := (h m hm).2 c hc
    refine ⟨?_, by rintro rfl; exact absurd hletter (by decide)⟩
    rw [isLetter_iff] at hletter
    exact isBlank_of_visible (by omega)
  · exact forall_of_all (P := fun c => isBlank c = false ∧ c ≠ '&') (by decide) c hc

theorem keyClause_cases (h : Head) : keyClause h = "" ∨ ∃ source key, h.key = some source ∧
    Expr.compile source = .ok key ∧ key.isIdentifier ∧ keyClause h = " trackBy " ++ key.text := by
  unfold keyClause
  split
  · rename_i key hkey
    obtain ⟨source, hsource, hcompile⟩ := Option.map_eq_some_iff.1 hkey
    unfold trackByClause
    split
    · exact .inr ⟨source, key, hsource, hcompile, ‹_›, rfl⟩
    · exact .inl rfl
  · exact .inl rfl

theorem framed_identifier (hcompile : Expr.compile source = .ok compiled)
    (h : compiled.isIdentifier) : Framed compiled.text.toList := by
  apply Expr.framed_compile _ hcompile
  rw [Bool.eq_false_iff]
  intro hblank
  rw [compile_blank hblank hcompile] at h
  cases h

theorem Site.verbatim_front {site : Site} {code : String} (hadmits : site.Admits h source code) :
    Verbatim (site.front h).toList := by
  cases site with
  | list =>
    cases hloop : h.loop with
    | none =>
      rw [Site.front, hloop]
      decide
    | some l =>
      have hnames := visible_loopNames (hadmits.item l hloop) (hadmits.index l hloop)
      have hlast : ∀ c ∈ (loopNames l).toList.getLast?, isBlank c = false := fun c hc =>
        (hnames c (List.mem_of_getLast? hc)).1
      have hspace : ∀ c ∈ " in _l(".toList.head?, c ∉ entity := by
        rintro c ⟨⟩
        decide
      rw [Site.front, hloop, Option.map_some, Option.getD_some, String.toList_append]
      exact (San.verbatim_of_visible hnames).append (by decide) (.inl hlast) (.inr hspace)
  | handler a => exact verbatim_modifiers hadmits
  | _ =>
    rw [Site.front]
    decide

theorem Site.verbatim_back {site : Site} {code : String} (hadmits : site.Admits h source code) :
    Verbatim (site.back h).toList := by
  cases site with
  | list =>
    rw [Site.back]
    rcases keyClause_cases h with hnone | ⟨source, key, hkey, hcompile, hident, hclause⟩
    · rw [hnone]
      decide
    · rw [hclause, ← String.append_assoc, String.toList_append]
      have hspace : ∀ c ∈ (")" ++ " trackBy ").toList.getLast?, c ∉ entity := by
        rintro c ⟨⟩
        decide
      have hfirst := (framed_identifier hcompile hident).first_visible []
      rw [List.append_nil] at hfirst
      exact Verbatim.append (by decide) (hadmits.key source key hkey hcompile hident).1
        (.inr hfirst) (.inl hspace)
  | _ =>
    rw [Site.back]
    decide

theorem Site.verbatim_value {site : Site} {code : String} (hadmits : site.Admits h source code)
    (hcode : Verbatim code.toList) (hframed : Framed code.toList) :
    Verbatim (site.value h code).toList := by
  rw [Site.value, String.toList_append, String.toList_append, List.append_assoc]
  have hrest : Verbatim (code.toList ++ (site.back h).toList) :=
    hcode.append (Site.verbatim_back hadmits) (.inl hframed.last_visible) (.inr (site.back_guard h))
  exact (Site.verbatim_front hadmits).append hrest (.inr (hframed.first_visible _))
    (.inl (site.front_guard h))

/-! ## Code that is parsed -/

def Site.expr? (t : San.Head) : Site → Option Expr.Piped
  | test => ((t.directive? "if").bind (·.value)).bind (·.expr?)
  | branchTest => ((t.directive? "elif").bind (·.value)).bind (·.expr?)
  | list => ((t.directive? "for").bind (·.value)).bind (·.expr?)
  | handler _ => t.listeners.getLast?.bind (·.handler.expr?)
  | model => (t.properties.getLast?.filter (·.twoWay)).bind (·.value.expr?)
  | sync _ => (t.properties.getLast?.filter (·.twoWay)).bind (·.value.expr?)

def listCall (e : Expr.Node) : Expr.Node := .call default (.identifier ⟨default, "_l"⟩) [e]

/-- What a site makes of a parsed expression: a list is an argument, everything else is itself. -/
def Site.Shows (p q : Expr.Piped) : Site → Prop
  | list => q.unlocated = (⟨listCall p.expression, [], default⟩ : Expr.Piped).unlocated
  | _ => q = p

theorem readExprValue_of_trim {cs : List Char} {code : String} {p : Expr.Piped}
    (htrim : trim cs = code.toList) (hparse : Expr.parse code = .ok p) (span : Span) :
    ∃ v : San.Value, San.readExprValue cs span = .ok v ∧ v.expr? = some p := by
  refine ⟨⟨.expr p, some (String.ofList cs)⟩, ?_, rfl⟩
  simp only [San.readExprValue, San.readExpr, htrim, String.ofList_toList, hparse, mapError_ok,
    ok_bind, pure_eq_ok]

theorem spanModifiers_code {cs : List Char} (word : List Char)
    (h : (cs.dropWhile isLetter).head? ≠ some ':') :
    San.spanModifiers word cs = ([], word.reverse ++ cs) := by
  induction cs generalizing word with
  | nil => rw [San.spanModifiers, List.append_nil]
  | cons c cs ih =>
    have hcolon : c ≠ ':' := by
      rintro rfl
      exact h rfl
    by_cases hc : isLetter c = true
    · rw [List.dropWhile_cons_of_pos hc] at h
      simp [San.spanModifiers, hc, ih (c :: word) h]
    · simp [San.spanModifiers, hc]

theorem spanModifiers_word {m cs : List Char} (word : List Char)
    (hletters : ∀ c ∈ m, isLetter c = true) (hne : word.reverse ++ m ≠ []) :
    San.spanModifiers word (m ++ ':' :: cs) =
      (String.ofList (word.reverse ++ m) :: (San.spanModifiers [] cs).1,
        (San.spanModifiers [] cs).2) := by
  induction m generalizing word with
  | nil =>
    have hword : word ≠ [] := by simpa using hne
    simp [San.spanModifiers, hword]
  | cons c m ih =>
    rw [List.forall_mem_cons] at hletters
    have hcolon : c ≠ ':' := by
      rintro rfl
      exact absurd hletters.1 (by decide)
    simp [San.spanModifiers, hletters.1, ih (c :: word) hletters.2 (by simp)]

theorem spanModifiers_join {ms : List String} {cs : List Char}
    (hms : ∀ m ∈ ms, m ≠ "" ∧ ∀ c ∈ m.toList, isLetter c = true) (hcs : Framed cs) :
    San.spanModifiers [] ((String.join (ms.map (· ++ ":"))).toList ++ cs) = (ms, cs) := by
  induction ms with
  | nil => exact spanModifiers_code [] hcs.letters
  | cons m ms ih =>
    rw [List.forall_mem_cons] at hms
    have htext : (String.join ((m :: ms).map (· ++ ":"))).toList ++ cs =
        m.toList ++ ':' :: ((String.join (ms.map (· ++ ":"))).toList ++ cs) := by
      simp
    have hne : [].reverse ++ m.toList ≠ [] := by simpa using hms.1.1
    rw [htext, spanModifiers_word [] hms.1.2 hne, ih hms.2]
    simp

theorem twoWayCode?_bindBack (code : String) :
    San.twoWayCode? (bindBack code) = some (' ' :: (code.toList ++ [' '])) := by
  have hlist : (bindBack code).toList = '{' :: '=' :: ' ' :: (code.toList ++ [' ', '=', '}']) := by
    simp [bindBack]
  have hframed : Framed ('{' :: '=' :: ' ' :: (code.toList ++ [' ', '=', '}'])) :=
    .marked (by decide) (by decide) (EndsVisible.behind ⟨'}', rfl, by decide⟩
      ('=' :: ' ' :: code.toList))
  rw [San.twoWayCode?, hlist, hframed.trim_eq]
  simp

variable {code : String} {p : Expr.Piped} {span : Span}

theorem apply_directive {name raw key : String} {d : San.Directive} (t : San.Head)
    (hread : San.readDirective name raw span = .ok (key, d))
    (hexpr : d.value.bind (·.expr?) = some p) :
    ∃ t', t.apply ("s-" ++ name) (some raw) span = .ok t' ∧
      ((t'.directive? key).bind (·.value)).bind (·.expr?) = some p := by
  have hon : stripStart? "on-".toList ("s-" ++ name).toList = none := by
    simp [stripStart?, List.isPrefixOf]
  have hs : stripStart? "s-".toList ("s-" ++ name).toList = some name.toList := by
    rw [San.stripStart?_eq_some, String.toList_append]
  refine ⟨{ t with directives := t.directives.set key d }, ?_, ?_⟩
  · simp only [San.Head.apply, hon, hs, String.ofList_toList, Option.getD_some, hread, ok_bind,
      pure_eq_ok]
  · rw [San.Head.directive?, Entries.get?_set_self]
    exact hexpr

theorem apply_listener {event raw : String} {l : San.Listener} (t : San.Head)
    (hread : San.readListener event raw span = .ok l) (hexpr : l.handler.expr? = some p) :
    ∃ t', t.apply ("on-" ++ event) (some raw) span = .ok t' ∧
      t'.listeners.getLast?.bind (·.handler.expr?) = some p := by
  have hon : stripStart? "on-".toList ("on-" ++ event).toList = some event.toList := by
    rw [San.stripStart?_eq_some, String.toList_append]
  refine ⟨{ t with listeners := t.listeners ++ [l] }, ?_, ?_⟩
  · simp only [San.Head.apply, hon, String.ofList_toList, Option.getD_some, hread, ok_bind,
      pure_eq_ok]
  · rw [List.getLast?_concat]
    exact hexpr

theorem apply_bindBack {name : String} (hon : stripStart? "on-".toList name.toList = none)
    (hs : stripStart? "s-".toList name.toList = none) (hframed : Framed code.toList)
    (hparse : Expr.parse code = .ok p) (t : San.Head) :
    ∃ t', t.apply name (some (bindBack code)) span = .ok t' ∧
      (t'.properties.getLast?.filter (·.twoWay)).bind (·.value.expr?) = some p := by
  obtain ⟨v, hread, hexpr⟩ := readExprValue_of_trim hframed.trim_spaced hparse span
  let property : San.Property := ⟨name, v, some (.source (bindBack code)), true⟩
  refine ⟨{ t with properties := t.properties ++ [property] }, ?_, ?_⟩
  · simp only [San.Head.apply, hon, hs, San.readProperty, twoWayCode?_bindBack, hread, ok_bind,
      pure_eq_ok, property]
  · rw [List.getLast?_concat]
    exact hexpr

theorem readDirective_test {name key : String}
    (hname : name = "if" ∧ key = "if" ∨ name = "else-if" ∧ key = "elif")
    (hframed : Framed code.toList) (hparse : Expr.parse code = .ok p) (span : Span) :
    ∃ d : San.Directive, San.readDirective name code span = .ok (key, d) ∧
      d.value.bind (·.expr?) = some p := by
  obtain ⟨v, hread, hexpr⟩ := readExprValue_of_trim hframed.trim_eq hparse span
  refine ⟨{ value := some v, raw := some code }, ?_, hexpr⟩
  rcases hname with ⟨rfl, rfl⟩ | ⟨rfl, rfl⟩
  · simp [San.readDirective, hread]
  · simp [San.readDirective, hread]

theorem readListener_handler {ms : List String} (event : String)
    (hms : ∀ m ∈ ms, m ≠ "" ∧ ∀ c ∈ m.toList, isLetter c = true) (hframed : Framed code.toList)
    (hparse : Expr.parse code = .ok p) (span : Span) :
    ∃ l : San.Listener,
      San.readListener event (String.join (ms.map (· ++ ":")) ++ code) span = .ok l ∧
        l.handler.expr? = some p := by
  obtain ⟨v, hread, hexpr⟩ := readExprValue_of_trim hframed.trim_eq hparse span
  refine ⟨⟨event, ms, v, some (String.join (ms.map (· ++ ":")) ++ code)⟩, ?_, hexpr⟩
  simp only [San.readListener, String.toList_append, spanModifiers_join hms hframed, hread, ok_bind,
    pure_eq_ok]

/-! ## Lists -/

theorem trackBy?_keyClause {key : Expr.Compiled} (hcompile : Expr.compile source = .ok key)
    (hident : key.isIdentifier) (hclause : keyClause h = " trackBy " ++ key.text) :
    San.trackBy? (keyClause h).toList = some key.text.toList := by
  rw [hclause, String.toList_append, San.trackBy?_key (framed_identifier hcompile hident)]

theorem splitTrackBy_clause (h : Head) : San.splitTrackBy (')' :: (keyClause h).toList) =
    ([')'], San.trackBy? (keyClause h).toList) := by
  rcases keyClause_cases h with hnone | ⟨source, key, hsource, hcompile, hident, hclause⟩
  · rw [hnone]
    rfl
  · rw [San.splitTrackBy, trackBy?_keyClause hcompile hident hclause]

theorem exists_keyValue (hkey : KeyReads h) (span : Span) :
    ∀ key ∈ San.trackBy? (keyClause h).toList, ∃ v, San.readExprValue key span = .ok v := by
  rcases keyClause_cases h with hnone | ⟨source, key, hsource, hcompile, hident, hclause⟩
  · rw [hnone]
    exact fun key hkey => by cases hkey
  · obtain ⟨-, p, hparse⟩ := hkey source key hsource hcompile hident
    rw [trackBy?_keyClause hcompile hident hclause]
    intro _ hmem
    obtain rfl := Option.some.inj hmem
    obtain ⟨v, hread, -⟩ :=
      readExprValue_of_trim (framed_identifier hcompile hident).trim_eq hparse span
    exact ⟨v, hread⟩

theorem ofChars?_header {l : Loop} (hloop : h.loop = some l) (hitem : San.isLoopName l.item = true)
    (hindex : ∀ i ∈ l.iterator1, San.isLoopName i = true)
    (hcode : San.mentionsTrackBy code.toList = false) :
    San.LoopText.ofChars? (Site.list.value h code).toList =
      some ⟨l.item.toList, l.iterator1.map (·.toList), ("_l(" ++ code ++ ")").toList,
        San.trackBy? (keyClause h).toList⟩ := by
  have htext : (Site.list.value h code).toList = (loopNames l).toList ++
      San.headerTail (("_l(" ++ code).toList ++ ')' :: (keyClause h).toList) := by
    simp [Site.list_value hloop, San.headerTail]
  have hopened : San.mentionsTrackBy ("_l(" ++ code).toList = false := by
    rw [String.toList_append]
    exact hcode
  have hsplit := San.splitTrackBy_closed hopened (splitTrackBy_clause h)
  have hlist : ("_l(" ++ code ++ ")").toList = ("_l(" ++ code).toList ++ [')'] :=
    String.toList_append
  rw [htext, San.ofChars?_written hitem hindex, hsplit, hlist]
  · simp
    decide
  · simp

theorem readDirective_list {l : Loop} (hloop : h.loop = some l)
    (hadmits : AdmitsList h source code) (hparse : Expr.parse ("_l(" ++ code ++ ")") = .ok p)
    (span : Span) :
    ∃ d : San.Directive, San.readDirective "for" (Site.list.value h code) span = .ok ("for", d) ∧
      d.value.bind (·.expr?) = some p := by
  have hframed : Framed ("_l(" ++ code ++ ")").toList := by
    have hlist : ("_l(" ++ code ++ ")").toList = '_' :: ('l' :: '(' :: code.toList ++ [')']) := by
      simp
    rw [hlist]
    exact .marked (by decide) (by decide) (EndsVisible.behind ⟨')', rfl, by decide⟩ _)
  obtain ⟨v, hread, hexpr⟩ := readExprValue_of_trim hframed.trim_eq hparse span
  have hkey := exists_keyValue hadmits.key span
  obtain ⟨trackBy, htrackBy⟩ : ∃ trackBy,
      (San.trackBy? (keyClause h).toList).mapM (San.readExprValue · span) = .ok trackBy := by
    cases hfound : San.trackBy? (keyClause h).toList with
    | none => exact ⟨none, rfl⟩
    | some key =>
      obtain ⟨v, hv⟩ := hkey key hfound
      exact ⟨some v, by simp [hv]⟩
  have hindex : (l.iterator1.map (·.toList)).map String.ofList = l.iterator1 := by
    simp [Function.comp_def]
  refine ⟨⟨some v, some l.item, l.iterator1, trackBy, some (Site.list.value h code)⟩, ?_, hexpr⟩
  simp only [San.readDirective, San.readLoop, ofChars?_header hloop (hadmits.item l hloop)
    (hadmits.index l hloop) hadmits.code, htrackBy, hread, ok_bind, pure_eq_ok, String.ofList_toList,
    hindex]

theorem parse_listCall {e : Expr.Piped} (hsource : Expr.parse source = .ok e)
    (hcompile : Expr.compile source = .ok compiled) (hsafe : e.IsDotSafe)
    (hfilters : e.filters = []) (hparse : Expr.parse compiled.text = .ok p) :
    ∃ q, Expr.parse ("_l(" ++ compiled.text ++ ")") = .ok q ∧
      q.unlocated = (⟨listCall p.expression, [], default⟩ : Expr.Piped).unlocated := by
  obtain ⟨p', hp', hfree⟩ :=
    Expr.exists_parsed_unfiltered hsource hcompile hsafe.expression hfilters
  obtain rfl := Except.ok.inj (hparse.symm.trans hp')
  have hargument := Expr.isArgumentFor_of_parse (Expr.parseExpression_of_parse hparse hfree)
  have hname : Expr.isName "_l" = true := by decide
  obtain ⟨q, hq, hcalled⟩ := Expr.parse_call hname (.cons hargument .nil)
  exact ⟨q, hq, hcalled.trans rfl⟩

theorem not_blank_of_parse (hcompile : Expr.compile source = .ok compiled)
    (hparse : Expr.parse compiled.text = .ok p) : allBlank source = false := by
  rw [Bool.eq_false_iff]
  intro hblank
  rw [compile_blank hblank hcompile] at hparse
  exact absurd (Expr.allBlank_of_parse hparse) (by decide)

theorem Site.apply_value {site : Site} (hadmits : site.Admits h source compiled.text)
    (hsource : site.source? h = some source) (hcompile : Expr.compile source = .ok compiled)
    (hparse : Expr.parse compiled.text = .ok p) (t : San.Head) (span : Span) :
    ∃ t' q, t.apply (site.attr h) (some (site.value h compiled.text)) span = .ok t' ∧
      site.expr? t' = some q ∧ site.Shows p q := by
  have hblank : allBlank source = false := not_blank_of_parse hcompile hparse
  have hframed := Expr.framed_compile hblank hcompile
  have hbare : "" ++ compiled.text ++ "" = compiled.text := by
    rw [String.empty_append, String.append_empty]
  cases site with
  | test =>
    obtain ⟨d, hread, hexpr⟩ := readDirective_test (.inl ⟨rfl, rfl⟩) hframed hparse span
    obtain ⟨t', happly, hfound⟩ := apply_directive t hread hexpr
    rw [Site.value, Site.front, Site.back, hbare]
    exact ⟨t', p, happly, hfound, rfl⟩
  | branchTest =>
    obtain ⟨d, hread, hexpr⟩ := readDirective_test (.inr ⟨rfl, rfl⟩) hframed hparse span
    obtain ⟨t', happly, hfound⟩ := apply_directive t hread hexpr
    rw [Site.value, Site.front, Site.back, hbare]
    exact ⟨t', p, happly, hfound, rfl⟩
  | list =>
    obtain ⟨l, hloop, rfl⟩ := Option.map_eq_some_iff.1 hsource
    obtain ⟨e, he⟩ := Expr.exists_parsed hblank hcompile
    obtain ⟨q, hq, hshows⟩ :=
      parse_listCall he hcompile (hadmits.safe e he) (hadmits.unfiltered e he) hparse
    obtain ⟨d, hread, hexpr⟩ := readDirective_list hloop hadmits hq span
    obtain ⟨t', happly, hfound⟩ := apply_directive t hread hexpr
    exact ⟨t', q, happly, hfound, hshows⟩
  | handler a =>
    obtain ⟨l, hread, hexpr⟩ :=
      readListener_handler (listenerParts a).1 hadmits hframed hparse span
    obtain ⟨t', happly, hfound⟩ := apply_listener t hread hexpr
    rw [Site.value, Site.front, Site.back, String.append_empty]
    exact ⟨t', p, happly, hfound, rfl⟩
  | model =>
    have hname : stripStart? "on-".toList (modelAttr h).toList = none ∧
        stripStart? "s-".toList (modelAttr h).toList = none := by
      unfold modelAttr
      split
      · exact ⟨rfl, rfl⟩
      · exact ⟨rfl, rfl⟩
    obtain ⟨t', happly, hexpr⟩ := apply_bindBack hname.1 hname.2 hframed hparse t
    exact ⟨t', p, happly, hexpr, rfl⟩
  | sync key =>
    obtain ⟨t', happly, hexpr⟩ := apply_bindBack hadmits.1 hadmits.2 hframed hparse t
    exact ⟨t', p, happly, hexpr, rfl⟩

/-! ## Read attributes -/

/-- A value is not left out: only an empty one could be, and names of tests and loops are not among
those that may be present without one. -/
theorem Site.isBooleanAttr_attr {site : Site} (hsource : site.source? h = some source)
    (hcompile : Expr.compile source = .ok compiled) (hempty : site.value h compiled.text = "") :
    isBooleanAttr (site.attr h) = false := by
  cases site with
  | test => rfl
  | branchTest => rfl
  | list => rfl
  | handler a =>
    obtain ⟨hlistener, hvalue⟩ := Option.ite_none_right_eq_some.1 hsource
    obtain rfl := Option.some.inj hvalue
    rw [Bool.and_eq_true, Bool.not_eq_true'] at hlistener
    have hne := (Expr.framed_compile hlistener.2 hcompile).ne_nil
    simp [Site.value] at hempty
    exact absurd (String.toList_eq_nil_iff.2 hempty.1.2) hne
  | model => simp [Site.value, Site.front] at hempty
  | sync key => simp [Site.value, Site.front] at hempty

/-- Structural code that collapsing blanks and resolving quotes do not change is read back verbatim
from the attribute that it is written to, and parsed as itself. -/
theorem structuralCode_read {site : Site} (hsource : site.source? h = some source)
    (hcompile : Expr.compile source = .ok compiled) (hdone : site.Finishes h h')
    (hnamed : site.IsNamed h) (hcode : Verbatim compiled.text.toList) :
    ∃ value read, h'.attr? (site.attr h) = some value ∧
      (∀ tag pos rest, Behind rest →
        ∃ stop, San.readAttr ⟨pos, (writeAttr (site.attr h) value tag).toList ++ rest⟩ =
          (site.attr h, some read, stop)) ∧
      compiled.text.toList <:+: read.toList ∧
      ∀ p, Expr.parse compiled.text = .ok p → site.Admits h source compiled.text →
        ∀ (t : San.Head) span, ∃ t' q, t.apply (site.attr h) (some read) span = .ok t' ∧
          site.expr? t' = some q ∧ site.Shows p q := by
  obtain ⟨hname, hvalueless⟩ := Site.isAttrName_attr hnamed
  refine ⟨site.value h compiled.text,
    String.ofList (unescaped (writtenValue (site.value h compiled.text))),
    Site.attr_written hsource hcompile hdone, ?_, ?_, ?_⟩
  · intro tag pos rest hrest
    exact San.readAttr_writeAttr hname hvalueless (Site.isBooleanAttr_attr hsource hcompile) tag pos
      hrest
  · rw [String.toList_ofList]
    exact site.infix_read h hcompile hcode
  · intro p hparse hadmits t span
    have hframed := Expr.framed_compile (not_blank_of_parse hcompile hparse) hcompile
    have hvalue := Site.verbatim_value hadmits hcode hframed
    rw [San.writtenValue_of_verbatim hvalue, hvalue.quotes, String.ofList_toList]
    exact Site.apply_value hadmits hsource hcompile hparse t span

def sampleListHead : Head where
  tag := "li"
  attrs := [("v-for", "(x, i) in f('a b', y)"), (":key", "x")]
  loop := some ⟨"f('a b', y)", "x", some "i", none⟩
  key := some "x"

theorem sampleListHead_admits : AdmitsList sampleListHead "f('a b', y)" "f('a b', y)" := by
  have hkey : (Expr.compile "x").toOption.all (fun key =>
      decide (Verbatim key.text.toList) && (Expr.parse key.text).toOption.isSome) = true := by
    decide +kernel
  have hsafe : (Expr.parse "f('a b', y)").toOption.all (fun e =>
      decide e.IsDotSafe && e.filters.isEmpty) = true := by
    decide +kernel
  refine ⟨by decide, by decide, ?_, by decide, ?_, ?_⟩
  · rintro source key hsource hcompile -
    obtain rfl := Option.some.inj hsource
    rw [hcompile, toOption_ok, Option.all_some, Bool.and_eq_true, decide_eq_true_eq] at hkey
    obtain ⟨p, hp⟩ := Option.isSome_iff_exists.1 hkey.2
    exact ⟨hkey.1, p, toOption_eq_some.1 hp⟩
  · intro e he
    rw [he, toOption_ok, Option.all_some, Bool.and_eq_true] at hsafe
    exact of_decide_eq_true hsafe.1
  · intro e he
    rw [he, toOption_ok, Option.all_some, Bool.and_eq_true, List.isEmpty_iff] at hsafe
    exact hsafe.2

theorem sampleListHead_read :
    ∃ compiled p h' value read, Expr.compile "f('a b', y)" = .ok compiled ∧
      compiled.text = "f('a b', y)" ∧ Expr.parse compiled.text = .ok p ∧
      transformLoop sampleListHead = .done h' ∧ h'.attr? "s-for" = some value ∧
      (∀ tag pos rest, Behind rest →
        ∃ stop, San.readAttr ⟨pos, (writeAttr "s-for" value tag).toList ++ rest⟩ =
          ("s-for", some read, stop)) ∧
      compiled.text.toList <:+: read.toList ∧
      ∀ (t : San.Head) span, ∃ t' q, t.apply "s-for" (some read) span = .ok t' ∧
        Site.list.expr? t' = some q ∧ Site.list.Shows p q := by
  have hcompile : (Expr.compile "f('a b', y)").toOption.map (·.text) = some "f('a b', y)" := by
    decide +kernel
  have hparse : (Expr.parse "f('a b', y)").toOption.isSome = true := by
    decide +kernel
  have hdone : transformLoop sampleListHead = .done (transformLoop sampleListHead).value :=
    Edit.eq_done_of_error? (by decide +kernel)
  obtain ⟨compiled, hcompiled, htext⟩ := Option.map_eq_some_iff.1 hcompile
  obtain ⟨p, hp⟩ := Option.isSome_iff_exists.1 hparse
  rw [toOption_eq_some] at hcompiled hp
  rw [← htext] at hp
  have hcode : Verbatim compiled.text.toList := by
    rw [htext]
    decide
  have hsource : Site.list.source? sampleListHead = some "f('a b', y)" := rfl
  obtain ⟨value, read, hattr, hread, hinfix, happly⟩ :=
    structuralCode_read hsource hcompiled hdone trivial hcode
  refine ⟨compiled, p, _, value, read, hcompiled, htext, hp, hdone, hattr, hread, hinfix, ?_⟩
  exact happly p hp (htext ▸ sampleListHead_admits)

def sampleTestHead : Head where
  tag := "p"
  attrs := [("v-if", "a == 'x  y'")]
  ifTest := some "a == 'x  y'"

/-- The two blanks in the string of a test are one blank in what is read. -/
theorem blanks_in_test_collapsed :
    ∃ compiled h', Expr.compile "a == 'x  y'" = .ok compiled ∧ compiled.text = "a=='x  y'" ∧
      transformConditional sampleTestHead = .done h' ∧ h'.attr? "s-if" = some compiled.text ∧
      (San.readAttr ⟨0, (writeAttr "s-if" compiled.text "p").toList ++ ['>']⟩).2.1 =
        some "a=='x y'" ∧
      ¬compiled.text.toList <:+: "a=='x y'".toList := by
  have hcompile : (Expr.compile "a == 'x  y'").toOption.map (·.text) = some "a=='x  y'" := by
    decide +kernel
  have hdone : transformConditional sampleTestHead =
      .done (transformConditional sampleTestHead).value :=
    Edit.eq_done_of_error? (by decide +kernel)
  have hread : (San.readAttr ⟨0, (writeAttr "s-if" "a=='x  y'" "p").toList ++ ['>']⟩).2.1 =
      some "a=='x y'" := by
    decide +kernel
  obtain ⟨compiled, hcompiled, htext⟩ := Option.map_eq_some_iff.1 hcompile
  rw [toOption_eq_some] at hcompiled
  have hsource : Site.test.source? sampleTestHead = some "a == 'x  y'" := rfl
  have hattr := Site.attr_written hsource hcompiled hdone
  refine ⟨compiled, _, hcompiled, htext, hdone, ?_, ?_, ?_⟩
  · rw [Site.value, Site.front, Site.back, String.empty_append, String.append_empty] at hattr
    exact hattr
  · rw [htext, hread]
  · rw [htext]
    decide

end VueToSan.Transform
