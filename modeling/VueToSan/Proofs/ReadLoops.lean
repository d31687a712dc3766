import VueToSan.Proofs.SpacedCode
import VueToSan.Proofs.StructuralCode

/-!
# Loops over lists without texts

The code of a list without texts and filters has no blank behind a word, so nothing in it is taken
for the clause of a key. The header of such a loop is read as it was written: its item, its index,
its list and the identifier that its items are tracked by.
-/

namespace VueToSan.San

open VueToSan.Text

/-! ## No key in spaced code -/

theorem afterBlanks?_eq_none {cs : List Char} (h : ∀ c ∈ cs.head?, isBlank c = false) :
    afterBlanks? cs = none := by
  cases cs with
  | nil => rfl
  | cons c cs =>
    have hc : isBlank c = false := h c rfl
    simp [afterBlanks?, hc]

theorem dropWhile_isBlank_closed (cs rest : List Char) :
    (cs ++ ')' :: rest).dropWhile isBlank = cs.dropWhile isBlank ++ ')' :: rest := by
  rw [List.dropWhile_append]
  split
  · rename_i hnil
    rw [List.isEmpty_iff.1 hnil]
    rfl
  · rfl

variable {cs : List Char}

theorem visible_behind_word {w : Char} {word rest out : List Char}
    (hword : ∀ v ∈ w :: word, isLower v = true)
    (hcs : cs.IsChain fun a b => isBlank b = true → b = ' ' ∧ a ∈ [',', '+', '-'])
    (hskip : skipFolded? (w :: word) (cs ++ ')' :: rest) = some out) :
    ∀ c ∈ out.head?, isBlank c = false := by
  induction word generalizing w cs with
  | nil =>
    cases cs with
    | nil =>
      obtain ⟨hfold, -⟩ := Option.ite_none_right_eq_some.1 hskip
      rw [← hfold] at hword
      exact absurd (hword _ List.mem_cons_self) (by decide)
    | cons c cs =>
      obtain ⟨hfold, hout⟩ := Option.ite_none_right_eq_some.1 hskip
      obtain rfl := Option.some.inj hout
      cases cs with
      | nil =>
        rintro d ⟨⟩
        decide
      | cons d cs =>
        rintro _ ⟨⟩
        rw [Bool.eq_false_iff]
        intro hblank
        -- In spaced code only a comma or a sign stands in front of a blank, and no letter folds to
        -- one.
        have hmark := ((List.isChain_cons_cons.1 hcs).1 hblank).2
        have hlower : isLower (foldLetter c) = true := hfold ▸ hword w List.mem_cons_self
        exact absurd hlower (forall_of_all (P := fun c => ¬isLower (foldLetter c) = true)
          (by decide) c hmark)
  | cons v word ih =>
    cases cs with
    | nil =>
      obtain ⟨hfold, -⟩ := Option.ite_none_right_eq_some.1 hskip
      rw [← hfold] at hword
      exact absurd (hword _ List.mem_cons_self) (by decide)
    | cons c cs =>
      obtain ⟨-, hrest⟩ := Option.ite_none_right_eq_some.1 hskip
      exact ih (List.forall_mem_cons.1 hword).2 (List.isChain_cons.1 hcs).2 hrest

theorem trackBy?_spaced
    (hcs : cs.IsChain fun a b => isBlank b = true → b = ' ' ∧ a ∈ [',', '+', '-'])
    (rest : List Char) : trackBy? (cs ++ ')' :: rest) = none := by
  unfold trackBy?
  split
  · rw [dropWhile_isBlank_closed, Option.bind_eq_none_iff]
    intro out hskip
    exact afterBlanks?_eq_none (visible_behind_word (forall_of_all (by decide))
      (hcs.suffix (List.dropWhile_suffix _)) hskip)
  · rfl

theorem splitTrackBy_spaced {rest : List Char}
    (hcs : cs.IsChain fun a b => isBlank b = true → b = ' ' ∧ a ∈ [',', '+', '-'])
    (hrest : splitTrackBy (')' :: rest) = ([')'], trackBy? rest)) :
    splitTrackBy (cs ++ ')' :: rest) = (cs ++ [')'], trackBy? rest) := by
  induction cs with
  | nil => exact hrest
  | cons c cs ih =>
    have htail := (List.isChain_cons.1 hcs).2
    rw [List.cons_append, splitTrackBy, trackBy?_spaced htail, ih htail]
    rfl

end VueToSan.San

namespace VueToSan.Transform

open VueToSan.Text VueToSan.Markup

variable {h : Head} {l : Loop} {list : Expr.Compiled}

/-! ## Keys -/

def keyName? (source : String) : Option Expr.Name :=
  match Expr.parse source with
  | .ok ⟨.identifier name, _, _⟩ => some name
  | _ => none

def trackedName? (h : Head) : Option Expr.Name := h.key.bind keyName?

def HasPlainKey (h : Head) : Prop :=
  ∀ source ∈ h.key, (∃ key, Expr.compile source = .ok key) ∧
    ∀ e, Expr.parse source = .ok e → e.filters = []

theorem compiled_expression {source : String} {e : Expr.Piped} {compiled : Expr.Compiled}
    (hparse : Expr.parse source = .ok e) (hcompile : Expr.compile source = .ok compiled) :
    compiled.expression = some e.expression := by
  simp only [Expr.compile, Expr.allBlank_of_parse hparse, Bool.false_eq_true, if_false, bind_eq_ok,
    mapError_eq_ok] at hcompile
  obtain ⟨parsed, hparsed, code, -, hok⟩ := hcompile
  obtain rfl := Except.ok.inj (hparse.symm.trans hparsed)
  rw [← Except.ok.inj hok]

theorem trackByClause_keyName {source : String} {key : Expr.Compiled}
    (hcompile : Expr.compile source = .ok key)
    (hfilters : ∀ e, Expr.parse source = .ok e → e.filters = []) :
    keyName? source = none ∧ trackByClause key = "" ∨
      ∃ name, keyName? source = some name ∧ Expr.isName name.text = true ∧
        trackByClause key = " trackBy " ++ name.text := by
  cases hparse : Expr.parse source with
  | error error =>
    have hblank : allBlank source = true := by
      by_contra hvisible
      obtain ⟨e, he⟩ := Expr.exists_parsed (Bool.eq_false_iff.2 hvisible) hcompile
      rw [hparse] at he
      cases he
    refine .inl ⟨by simp only [keyName?, hparse], ?_⟩
    rw [compile_blank hblank hcompile]
    rfl
  | ok e =>
    obtain ⟨base, hbase, htext⟩ :=
      Expr.compile_ok_unfiltered hparse hcompile (hfilters e hparse)
    have hspelled := (Expr.parse_isSpelled hparse).1
    rw [trackByClause, Expr.Compiled.isIdentifier, compiled_expression hparse hcompile]
    cases hnode : e.expression with
    | identifier name =>
      rw [hnode] at hbase hspelled
      refine .inr ⟨name, ?_, hspelled, ?_⟩
      · obtain ⟨expression, filters, location⟩ := e
        obtain rfl := hnode
        simp only [keyName?, hparse]
      · rw [← htext, ← Except.ok.inj hbase]
        rfl
    | _ =>
      refine .inl ⟨?_, rfl⟩
      obtain ⟨expression, filters, location⟩ := e
      obtain rfl := hnode
      simp only [keyName?, hparse]

theorem keyClause_tracked (hkey : HasPlainKey h) :
    trackedName? h = none ∧ keyClause h = "" ∨
      ∃ name, trackedName? h = some name ∧ Expr.isName name.text = true ∧
        keyClause h = " trackBy " ++ name.text := by
  cases hsource : h.key with
  | none =>
    refine .inl ⟨?_, ?_⟩
    · rw [trackedName?, hsource, Option.bind_none]
    · simp only [keyClause, hsource, Option.map_none]
  | some source =>
    obtain ⟨⟨key, hcompile⟩, hfilters⟩ := hkey source hsource
    rw [trackedName?, hsource, Option.bind_some, keyClause_some hsource hcompile]
    exact trackByClause_keyName hcompile hfilters

theorem trackBy?_tracked (hkey : HasPlainKey h) :
    San.trackBy? (keyClause h).toList = (trackedName? h).map (·.text.toList) := by
  rcases keyClause_tracked hkey with ⟨hnone, hclause⟩ | ⟨name, hname, hword, hclause⟩
  · rw [hnone, hclause]
    rfl
  · rw [hname, hclause, String.toList_append,
      San.trackBy?_key (Expr.framed_word (Expr.isWord_of_isName hword)), Option.map_some]

theorem readExprValue_name {name : Expr.Name} (hname : Expr.isName name.text = true) :
    ∃ p : Expr.Piped, p.unlocated = (⟨.identifier name, [], default⟩ : Expr.Piped).unlocated ∧
      ∀ span, San.readExprValue name.text.toList span = .ok ⟨.expr p, some name.text⟩ := by
  obtain ⟨p, hparse, hfilters, hp⟩ :=
    Expr.parse_unfiltered ((Expr.bare_name hname false).operand (p := .free) trivial).2
  refine ⟨p, by rw [Expr.Piped.unlocated, hfilters, hp]; rfl, fun span => ?_⟩
  have hframed := Expr.framed_word (Expr.isWord_of_isName hname)
  simp only [San.readExprValue, San.readExpr, hframed.trim_eq, String.ofList_toList, hparse,
    mapError_ok, ok_bind, pure_eq_ok]

/-! ## Headers -/

theorem spaced_call (hlist : Spaced list.text.toList) : Spaced ("_l(" ++ list.text).toList :=
  Expr.spaced_append (Expr.spaced_fixed (by decide)) hlist

theorem ofChars?_spaced (hloop : h.loop = some l) (hitem : San.isLoopName l.item = true)
    (hindex : ∀ i ∈ l.iterator1, San.isLoopName i = true) (hlist : Spaced list.text.toList) :
    San.LoopText.ofChars? (Site.list.value h list.text).toList =
      some ⟨l.item.toList, l.iterator1.map (·.toList), ("_l(" ++ list.text ++ ")").toList,
        San.trackBy? (keyClause h).toList⟩ := by
  have htext : (Site.list.value h list.text).toList = (loopNames l).toList ++
      San.headerTail (("_l(" ++ list.text).toList ++ ')' :: (keyClause h).toList) := by
    simp [Site.list_value hloop, San.headerTail]
  have hsplit := San.splitTrackBy_spaced (spaced_call hlist).chain (splitTrackBy_clause h)
  have hcall : ("_l(" ++ list.text ++ ")").toList = ("_l(" ++ list.text).toList ++ [')'] :=
    String.toList_append
  rw [htext, San.ofChars?_written hitem hindex, hsplit, hcall]
  · simp
    decide
  · simp

theorem collapse_header (hloop : h.loop = some l) (hitem : San.isLoopName l.item = true)
    (hindex : ∀ i ∈ l.iterator1, San.isLoopName i = true) (hkey : HasPlainKey h)
    (hlist : Spaced list.text.toList) :
    collapse (Site.list.value h list.text).toList = (Site.list.value h list.text).toList := by
  have hnames := visible_loopNames hitem hindex
  have hcall : Spaced ("_l(" ++ list.text ++ ")").toList :=
    Expr.spaced_append (spaced_call hlist) (Expr.spaced_fixed (by decide))
  have htext : (Site.list.value h list.text).toList = (loopNames l).toList ++
      (" in ".toList ++ (("_l(" ++ list.text ++ ")").toList ++ (keyClause h).toList)) := by
    simp [Site.list_value hloop]
  have hclause : collapse (keyClause h).toList = (keyClause h).toList := by
    rcases keyClause_tracked hkey with ⟨-, hclause⟩ | ⟨name, -, hname, hclause⟩
    · rw [hclause]
      rfl
    · have hword := Expr.spaced_word (Expr.isWord_of_isName hname)
      rw [hclause, String.toList_append, collapse_append (.inr hword.first), hword.collapse_eq]
      rfl
  rw [htext, collapse_append, collapse_append, collapse_append, hclause, hcall.collapse_eq,
    (Spaced.of_visible fun c hc => (hnames c hc).1).collapse_eq]
  · rfl
  · refine .inl fun c hc => ?_
    have hlast : ("_l(" ++ list.text ++ ")").toList.getLast? = some ')' := by
      rw [String.toList_append]
      exact List.getLast?_concat
    obtain rfl := Option.some.inj (hlast.symm.trans hc)
    decide
  · refine .inr fun c hc => ?_
    have hhead : (("_l(" ++ list.text ++ ")").toList ++ (keyClause h).toList).head? = some '_' := by
      simp
    obtain rfl := Option.some.inj (hhead.symm.trans hc)
    decide
  · exact .inl fun c hc => (hnames c (List.mem_of_getLast? hc)).1

/-! ## Loops -/

theorem setLoop_keyAttrs (h : Head) (value : String) :
    ∀ name ∈ keyAttrs, (setLoop h value).attr? name = none := by
  intro name hname
  simp only [setLoop, keyAttrs, List.foldl_cons, List.foldl_nil, Head.removeAttr, Head.attr?,
    Entries.get?_erase]
  simp only [keyAttrs, List.mem_cons, List.not_mem_nil, or_false] at hname
  rcases hname with rfl | rfl | rfl <;> simp

theorem exists_listCall (hlist : Expr.compile l.source = .ok list)
    (hsafe : ∀ e, Expr.parse l.source = .ok e → e.IsDotSafe ∧ e.filters = []) :
    ∃ q, Expr.parse ("_l(" ++ list.text ++ ")") = .ok q := by
  cases hblank : allBlank l.source with
  | true =>
    have hcall : (Expr.parse "_l()").toOption.isSome = true := by decide +kernel
    obtain ⟨q, hq⟩ := Option.isSome_iff_exists.1 hcall
    rw [compile_blank hblank hlist]
    exact ⟨q, toOption_eq_some.1 hq⟩
  | false =>
    obtain ⟨e, he⟩ := Expr.exists_parsed hblank hlist
    obtain ⟨hdots, hfilters⟩ := hsafe e he
    obtain ⟨p, hp, -⟩ := Expr.exists_parsed_unfiltered he hlist hdots.expression hfilters
    obtain ⟨q, hq, -⟩ := parse_listCall he hlist hdots hfilters hp
    exact ⟨q, hq⟩

theorem framed_listCall (code : String) : Framed ("_l(" ++ code ++ ")").toList := by
  have hcall : ("_l(" ++ code ++ ")").toList = '_' :: ('l' :: '(' :: code.toList ++ [')']) := by
    simp
  rw [hcall]
  exact .marked (by decide) (by decide) (EndsVisible.behind ⟨')', rfl, by decide⟩ _)

/-- The key that is read is the identifier that the items are tracked by. -/
def IsTracked (trackBy : Option San.Value) (h : Head) : Prop :=
  trackBy.map (fun v => v.expr?.map (·.unlocated)) =
    (trackedName? h).map fun name =>
      some (⟨.identifier name, [], default⟩ : Expr.Piped).unlocated

theorem exists_tracked (hkey : HasPlainKey h) : ∃ trackBy, IsTracked trackBy h ∧
    ∀ span, (San.trackBy? (keyClause h).toList).mapM (San.readExprValue · span) = .ok trackBy := by
  rw [trackBy?_tracked hkey]
  rcases keyClause_tracked hkey with ⟨hnone, -⟩ | ⟨name, hname, hword, -⟩
  · refine ⟨none, ?_, fun span => ?_⟩
    · rw [IsTracked, hnone]
      rfl
    · rw [hnone]
      rfl
  · obtain ⟨p, hp, hread⟩ := readExprValue_name hword
    refine ⟨some ⟨.expr p, some name.text⟩, ?_, fun span => ?_⟩
    · rw [IsTracked, hname, Option.map_some, Option.map_some, ← hp]
      rfl
    · rw [hname, Option.map_some, Option.mapM_some, hread]
      rfl

theorem readLoop_spaced (hloop : h.loop = some l) (hitem : San.isLoopName l.item = true)
    (hindex : ∀ i ∈ l.iterator1, San.isLoopName i = true) (hlist : Spaced list.text.toList)
    {trackBy : Option San.Value} {span : Span}
    (htrackBy : (San.trackBy? (keyClause h).toList).mapM (San.readExprValue · span) =
      .ok trackBy) :
    San.readLoop (Site.list.value h list.text) span =
      match Expr.parse ("_l(" ++ list.text ++ ")") with
      | .ok q => .ok ⟨some ⟨.expr q, some ("_l(" ++ list.text ++ ")")⟩, some l.item, l.iterator1,
          trackBy, some (Site.list.value h list.text)⟩
      | .error error => .error ⟨.expression error.fault ("_l(" ++ list.text ++ ")"), span⟩ := by
  have hnames : (l.iterator1.map (·.toList)).map String.ofList = l.iterator1 := by
    simp [Function.comp_def]
  simp only [San.readLoop, ofChars?_spaced hloop hitem hindex hlist, htrackBy, ok_bind, hnames,
    String.ofList_toList]
  simp only [San.readExprValue, San.readExpr, (framed_listCall list.text).trim_eq,
    String.ofList_toList]
  cases Expr.parse ("_l(" ++ list.text ++ ")") with
  | ok q => rfl
  | error error => rfl

/-- A loop over a list without texts and filters is written so that its item, its index, its list
and the identifier that its items are tracked by are read back. The list is parsed with the helper
around it, which fails only if a point stands behind a whole number. -/
theorem transformLoop_read (hloop : h.loop = some l) (hitem : San.isLoopName l.item = true)
    (hindex : ∀ i ∈ l.iterator1, San.isLoopName i = true)
    (hlist : Expr.compile l.source = .ok list)
    (hplain : ∀ e, Expr.parse l.source = .ok e →
      e.filters = [] ∧ e.expression.isTextless = true)
    (hkey : HasPlainKey h) :
    ∃ h' value trackBy, transformLoop h = .done h' ∧ h'.attr? "s-for" = some value ∧
      (∀ name ∈ keyAttrs, h'.attr? name = none) ∧ collapse value.toList = value.toList ∧
      San.LoopText.ofChars? value.toList =
        some ⟨l.item.toList, l.iterator1.map (·.toList), ("_l(" ++ list.text ++ ")").toList,
          (trackedName? h).map (·.text.toList)⟩ ∧
      IsTracked trackBy h ∧
      (∀ span, San.readLoop value span =
        match Expr.parse ("_l(" ++ list.text ++ ")") with
        | .ok q => .ok ⟨some ⟨.expr q, some ("_l(" ++ list.text ++ ")")⟩, some l.item, l.iterator1,
            trackBy, some value⟩
        | .error error => .error ⟨.expression error.fault ("_l(" ++ list.text ++ ")"), span⟩) ∧
      ((∀ e, Expr.parse l.source = .ok e → e.IsDotSafe) →
        ∃ q, Expr.parse ("_l(" ++ list.text ++ ")") = .ok q) := by
  have hspaced := Expr.spaced_compile hlist hplain
  obtain ⟨value, hdone⟩ := transformLoop_done hloop hlist fun source hsource =>
    (hkey source hsource).1
  obtain ⟨trackBy, htracked, hread⟩ := exists_tracked hkey
  refine ⟨_, _, trackBy, hdone, transformLoop_attr hloop hlist hdone, setLoop_keyAttrs h value,
    collapse_header hloop hitem hindex hkey hspaced, ?_, htracked,
    fun span => readLoop_spaced hloop hitem hindex hspaced (hread span), ?_⟩
  · rw [ofChars?_spaced hloop hitem hindex hspaced, trackBy?_tracked hkey]
  · exact fun hsafe => exists_listCall hlist fun e he => ⟨hsafe e he, (hplain e he).1⟩

def sampleKeyedLoop : Head where
  tag := "li"
  attrs := [("v-for", "(in, i) of [a, trackBy] + + b"), (":key", "in_")]
  loop := some ⟨"[a, trackBy] + + b", "in", some "i", none⟩
  key := some "in_"

theorem sampleKeyedLoop_read :
    ∃ h' q trackBy, transformLoop sampleKeyedLoop = .done h' ∧
      h'.attr? "s-for" = some "in,i in _l([a, trackBy]+ +b) trackBy in_" ∧
      Expr.parse "_l([a, trackBy]+ +b)" = .ok q ∧ IsTracked trackBy sampleKeyedLoop ∧
      (trackedName? sampleKeyedLoop).map (·.text) = some "in_" ∧
      ∀ span, San.readLoop "in,i in _l([a, trackBy]+ +b) trackBy in_" span =
        .ok ⟨some ⟨.expr q, some "_l([a, trackBy]+ +b)"⟩, some "in", some "i", trackBy,
          some "in,i in _l([a, trackBy]+ +b) trackBy in_"⟩ := by
  have hcompile : (Expr.compile "[a, trackBy] + + b").toOption.map (·.text) =
      some "[a, trackBy]+ +b" := by
    decide +kernel
  have hlist : (Expr.parse "[a, trackBy] + + b").toOption.all (fun e =>
      e.filters.isEmpty && e.expression.isTextless && decide e.IsDotSafe) = true := by
    decide +kernel
  have hkey : (Expr.compile "in_").toOption.isSome ∧
      (Expr.parse "in_").toOption.all (fun e => e.filters.isEmpty) = true := by
    decide +kernel
  have hvalue : (transformLoop sampleKeyedLoop).value.attr? "s-for" =
      some "in,i in _l([a, trackBy]+ +b) trackBy in_" := by
    decide +kernel
  have hname : (trackedName? sampleKeyedLoop).map (·.text) = some "in_" := by
    decide +kernel
  obtain ⟨list, hlisted, htext⟩ := Option.map_eq_some_iff.1 hcompile
  rw [toOption_eq_some] at hlisted
  have hplain : ∀ e, Expr.parse "[a, trackBy] + + b" = .ok e →
      (e.filters = [] ∧ e.expression.isTextless = true) ∧ e.IsDotSafe := by
    intro e he
    simpa [he, and_assoc] using hlist
  have hplainKey : HasPlainKey sampleKeyedLoop := by
    rintro source ⟨⟩
    obtain ⟨key, hkey'⟩ := Option.isSome_iff_exists.1 hkey.1
    refine ⟨⟨key, toOption_eq_some.1 hkey'⟩, fun e he => ?_⟩
    simpa [he] using hkey.2
  obtain ⟨h', value, trackBy, hdone, hattr, -, -, -, htracked, hread, hsafe⟩ :=
    transformLoop_read (h := sampleKeyedLoop) rfl (by decide) (by decide) hlisted
      (fun e he => (hplain e he).1) hplainKey
  obtain ⟨q, hq⟩ := hsafe fun e he => (hplain e he).2
  rw [hdone, Edit.value, hattr] at hvalue
  obtain rfl := Option.some.inj hvalue
  rw [htext] at hq hread
  have hcall : "_l(" ++ "[a, trackBy]+ +b" ++ ")" = "_l([a, trackBy]+ +b)" := by decide
  rw [hcall] at hq hread
  simp only [hq] at hread
  exact ⟨h', q, trackBy, hdone, hattr, hq, htracked, hname, hread⟩

def sampleWholeLoop : Head where
  tag := "li"
  attrs := [("v-for", "x in (1).y")]
  loop := some ⟨"(1).y", "x", none, none⟩

/-- The header of a loop over a member of a whole number is told apart, but its list cannot be
parsed, so that no loop is read. -/
theorem whole_number_loop_unread :
    (∃ list, Expr.compile "(1).y" = .ok list ∧ list.text = "1.y") ∧
      (∃ e, Expr.parse "(1).y" = .ok e ∧ e.filters = [] ∧ e.expression.isTextless = true) ∧
      (∃ h', transformLoop sampleWholeLoop = .done h' ∧
        h'.attr? "s-for" = some "x in _l(1.y)") ∧
      San.LoopText.ofChars? "x in _l(1.y)".toList =
        some ⟨['x'], none, "_l(1.y)".toList, none⟩ ∧
      ∀ span d, San.readLoop "x in _l(1.y)" span ≠ .ok d := by
  have hcompile : (Expr.compile "(1).y").toOption.map (·.text) = some "1.y" := by
    decide +kernel
  have hlist : (Expr.parse "(1).y").toOption.any (fun e =>
      e.filters.isEmpty && e.expression.isTextless) = true := by
    decide +kernel
  have hvalue : (transformLoop sampleWholeLoop).value.attr? "s-for" = some "x in _l(1.y)" := by
    decide +kernel
  have hchars : San.LoopText.ofChars? "x in _l(1.y)".toList =
      some ⟨['x'], none, "_l(1.y)".toList, none⟩ := by
    decide +kernel
  have hcall : (Expr.parse "_l(1.y)").toOption.isNone = true := by
    decide +kernel
  refine ⟨?_, ?_, ⟨_, Edit.eq_done_of_error? (by decide +kernel), hvalue⟩, hchars, ?_⟩
  · obtain ⟨list, hlisted, htext⟩ := Option.map_eq_some_iff.1 hcompile
    exact ⟨list, toOption_eq_some.1 hlisted, htext⟩
  · obtain ⟨e, he, hplain⟩ := (Option.any_eq_true _ _).1 hlist
    rw [Bool.and_eq_true, List.isEmpty_iff] at hplain
    exact ⟨e, toOption_eq_some.1 he, hplain⟩
  · intro span d hread
    simp only [San.readLoop, hchars, Option.mapM_none, pure_eq_ok, ok_bind] at hread
    obtain ⟨v, hv, -⟩ := bind_eq_ok.1 hread
    obtain ⟨q, hq, -⟩ := bind_eq_ok.1 hv
    have htrim : String.ofList (trim "_l(1.y)".toList) = "_l(1.y)" := by decide
    simp only [San.readExpr, htrim, mapError_eq_ok] at hq
    rw [hq] at hcall
    cases hcall

end VueToSan.Transform
