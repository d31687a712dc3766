import VueToSan.Proofs.AdmittedTrees
import VueToSan.Proofs.CodeParts
import VueToSan.Proofs.QuietTexts
import VueToSan.Proofs.SoundCode

/-!
# Attributes that bring in admitted expressions

An attribute is read with its blanks collapsed and its quotes put back. What San then makes of each
form in which the rules write code is an admitted expression.
-/

namespace VueToSan.San

open VueToSan.Text VueToSan.Markup VueToSan.Transform
open VueToSan.Expr (IsSound IsInner IsPlainCode IsNative)

variable {name code : String} {raw : Option String}

/-! ## Parts of a head -/

/-- The name of an attribute that is neither a listener nor a directive of San. -/
structure IsPropertyName (name : String) : Prop where
  event : stripStart? "on-".toList name.toList = none
  directive : stripStart? "s-".toList name.toList = none

instance (name : String) : Decidable (IsPropertyName name) :=
  decidable_of_iff (stripStart? "on-".toList name.toList = none ∧
    stripStart? "s-".toList name.toList = none) ⟨fun h => ⟨h.1, h.2⟩, fun h => ⟨h.event, h.directive⟩⟩

theorem keepsAdmitted_property (hname : IsPropertyName name)
    (h : ∀ p span, readProperty name raw span = .ok p → p.value.isAdmitted = true) :
    keepsAdmitted name raw = true := by
  rw [keepsAdmitted, Option.all_eq_true]
  intro t happly
  simp only [toOption_eq_some, Head.apply, hname.event, hname.directive] at happly
  obtain ⟨p, hread, hdone⟩ := bind_eq_ok.1 happly
  obtain rfl := Except.ok.inj hdone
  simp [Head.isAdmitted, h p _ hread]

theorem keepsAdmitted_listener {event : String} (h : ∀ l span,
      readListener event (raw.getD "") span = .ok l → l.handler.isAdmitted = true) :
    keepsAdmitted ("on-" ++ event) raw = true := by
  rw [keepsAdmitted, Option.all_eq_true]
  intro t happly
  have hon : stripStart? "on-".toList ("on-" ++ event).toList = some event.toList := by
    rw [stripStart?_eq_some, String.toList_append]
  simp only [toOption_eq_some, Head.apply, hon, String.ofList_toList] at happly
  obtain ⟨l, hread, hdone⟩ := bind_eq_ok.1 happly
  obtain rfl := Except.ok.inj hdone
  simp [Head.isAdmitted, h l _ hread]

theorem keepsAdmitted_directive (h : ∀ key d span,
      readDirective name (raw.getD "") span = .ok (key, d) → d.isAdmitted = true) :
    keepsAdmitted ("s-" ++ name) raw = true := by
  rw [keepsAdmitted, Option.all_eq_true]
  intro t happly
  have hon : stripStart? "on-".toList ("s-" ++ name).toList = none := by
    simp [stripStart?, List.isPrefixOf]
  have hs : stripStart? "s-".toList ("s-" ++ name).toList = some name.toList := by
    rw [stripStart?_eq_some, String.toList_append]
  simp only [toOption_eq_some, Head.apply, hon, hs, String.ofList_toList] at happly
  obtain ⟨⟨key, d⟩, hread, hdone⟩ := bind_eq_ok.1 happly
  obtain rfl := Except.ok.inj hdone
  simp [Head.isAdmitted, Entries.set, Entries.has, h key d _ hread]

theorem attr_cases (name : String) :
    IsPropertyName name ∨ (∃ event, name = "on-" ++ event) ∨ ∃ rest, name = "s-" ++ rest := by
  have hsome : ∀ mark rest, stripStart? mark.toList name.toList = some rest →
      name = mark ++ String.ofList rest := by
    intro mark rest hrest
    rw [String.ext_iff, String.toList_append, String.toList_ofList]
    exact stripStart?_eq_some.1 hrest
  cases hon : stripStart? "on-".toList name.toList with
  | some rest => exact .inr (.inl ⟨_, hsome "on-" rest hon⟩)
  | none =>
    cases hs : stripStart? "s-".toList name.toList with
    | some rest => exact .inr (.inr ⟨_, hsome "s-" rest hs⟩)
    | none => exact .inl ⟨hon, hs⟩

/-! ## Values -/

/-- The value that San reads where an attribute is written with a value. -/
def readBack (value : String) : String := String.ofList (unescaped (writtenValue value))

theorem readBack_braced {rest : List Char} {value : String}
    (h : value.toList = '{' :: '{' :: rest) : (readBack value).toList = unescaped value.toList := by
  rw [readBack, String.toList_ofList, writtenValue, if_pos (by rw [h]; rfl)]

theorem readBack_unbraced {value : String} (h : ∀ rest, value.toList ≠ '{' :: '{' :: rest) :
    (readBack value).toList = unescaped (collapse value.toList) := by
  rw [readBack, String.toList_ofList, writtenValue, if_neg]
  intro hprefix
  obtain ⟨rest, hrest⟩ := List.isPrefixOf_iff_prefix.1 hprefix
  exact h rest hrest.symm

theorem IsCodePart.readBack {value : String} (h : IsCodePart value.toList) :
    IsCodePart (readBack value).toList := by
  rw [San.readBack, String.toList_ofList, writtenValue]
  split
  · exact h.unescaped
  · exact h.collapsed.unescaped

/-! ## Expressions -/

theorem isAdmitted_exprValue {cs : List Char} (h : IsNative (trim cs)) {span : Span} {v : Value}
    (hread : readExprValue cs span = .ok v) : v.isAdmitted = true := by
  obtain ⟨p, hp, hv⟩ := bind_eq_ok.1 hread
  obtain rfl := Except.ok.inj hv
  rw [← String.toList_ofList (l := trim cs)] at h
  exact h.isAdmitted (mapError_eq_ok.1 hp)

theorem lexed_of_exprValue {cs : List Char} {span : Span} {v : Value}
    (hread : readExprValue cs span = .ok v) : ∃ pos ts, Expr.Lexed pos (trim cs) ts := by
  obtain ⟨p, hp, -⟩ := bind_eq_ok.1 hread
  obtain ⟨used, behind, hlexed, -⟩ := Expr.parse_eq_ok (mapError_eq_ok.1 hp)
  rw [String.toList_ofList] at hlexed
  exact ⟨0, _, hlexed⟩

theorem not_readExprValue_nil {span : Span} {v : Value} : readExprValue [] span ≠ .ok v := by
  intro hread
  obtain ⟨p, hp, -⟩ := bind_eq_ok.1 hread
  rw [readExpr, mapError_eq_ok] at hp
  exact absurd (Expr.allBlank_of_parse hp) (by decide)

theorem not_readExprValue_braced {cs rest : List Char} (htrim : trim cs = '{' :: '{' :: rest)
    {span : Span} {v : Value} : readExprValue cs span ≠ .ok v := by
  intro hread
  obtain ⟨p, hp, -⟩ := bind_eq_ok.1 hread
  rw [readExpr, htrim, mapError_eq_ok] at hp
  exact Expr.not_parse_braced (.inl rfl) rest p hp

/-- A value that is no code counts where it is read as a text only. -/
theorem keepsAdmitted_uncoded
    (hhandler : (spanModifiers [] (raw.getD "").toList).2 = (raw.getD "").toList)
    (hloop : LoopText.ofChars? (raw.getD "").toList = none)
    (hcode : ∀ span v, readExprValue (raw.getD "").toList span ≠ .ok v)
    (htext : ∀ span v, San.readText (raw.getD "").toList span = .ok v → v.isAdmitted = true)
    (hproperty : ∀ p span, readProperty name raw span = .ok p → p.value.isAdmitted = true) :
    keepsAdmitted name raw = true := by
  rcases attr_cases name with hname | ⟨event, rfl⟩ | ⟨rest, rfl⟩
  · exact keepsAdmitted_property hname hproperty
  · apply keepsAdmitted_listener
    intro l span hread
    simp only [readListener, hhandler] at hread
    obtain ⟨v, hv, -⟩ := bind_eq_ok.1 hread
    exact absurd hv (hcode span v)
  · apply keepsAdmitted_directive
    intro key d span hread
    unfold readDirective at hread
    split at hread
    · cases hread
      rfl
    · obtain ⟨d, hd, -⟩ := bind_eq_ok.1 hread
      rw [readLoop, hloop] at hd
      cases hd
    iterate 4
      obtain ⟨v, hv, -⟩ := bind_eq_ok.1 hread
      exact absurd hv (hcode span v)
    · obtain ⟨v, hv, hd⟩ := bind_eq_ok.1 hread
      cases hd
      simp [Directive.isAdmitted, htext span v hv]

theorem keepsAdmitted_none (name : String) : keepsAdmitted name none = true := by
  have hempty : ((none : Option String).getD "").toList = [] := rfl
  apply keepsAdmitted_uncoded
  · rfl
  · rw [hempty]
    rfl
  · rw [hempty]
    exact fun _ _ => not_readExprValue_nil
  · intro span v hread
    obtain rfl := Except.ok.inj hread
    rfl
  · intro p span hread
    obtain rfl := Except.ok.inj hread
    rfl

/-! ## Interpolations -/

theorem isAdmitted_interpolation (hplain : IsPlainCode code) (hnative : IsNative code.toList)
    {span : Span} {v : Value} (hread : San.readText (interpolate code).toList span = .ok v) :
    v.isAdmitted = true := by
  rw [readText_interpolate hplain] at hread
  cases hexpr : readExpr code.toList span with
  | error e =>
    rw [hexpr] at hread
    cases hread
  | ok p =>
    rw [hexpr] at hread
    obtain rfl := Except.ok.inj hread
    exact isAdmitted_exprValue (v := ⟨.expr p, some code⟩) hnative.trim (by
      rw [readExprValue, hexpr, String.ofList_toList]
      rfl)

theorem keepsAdmitted_whole (hplain : IsPlainCode code) (hnative : IsNative code.toList) :
    keepsAdmitted name (some (interpolate code)) = true := by
  have hlist : (interpolate code).toList = '{' :: '{' :: ' ' :: (code.toList ++ [' ', '}', '}']) := by
    simp [interpolate]
  have hframed : Framed ('{' :: '{' :: ' ' :: (code.toList ++ [' ', '}', '}'])) :=
    .marked (by decide) (by decide) (EndsVisible.behind ⟨'}', rfl, by decide⟩ ('{' :: ' ' :: code.toList))
  have htext : ∀ span v, San.readText (interpolate code).toList span = .ok v →
      v.isAdmitted = true := fun span v => isAdmitted_interpolation hplain hnative
  have honeWay : twoWayCode? (interpolate code) = none := by
    rw [twoWayCode?, hlist, hframed.trim_eq]
    rfl
  apply keepsAdmitted_uncoded
  · rw [Option.getD_some, hlist]
    rfl
  · rw [Option.getD_some, hlist]
    rfl
  · intro span v
    rw [Option.getD_some, hlist]
    exact not_readExprValue_braced hframed.trim_eq
  · exact htext
  · intro p span hread
    simp only [San.readProperty, honeWay] at hread
    obtain ⟨v, hv, hp⟩ := bind_eq_ok.1 hread
    obtain rfl := Except.ok.inj hp
    exact htext span v hv

theorem readBack_interpolate (code : String) :
    readBack (interpolate code) = interpolate (String.ofList (unescaped code.toList)) := by
  have hlist : ∀ code : String,
      (interpolate code).toList = ['{', '{', ' '] ++ (code.toList ++ [' ', '}', '}']) := by
    intro code
    simp [interpolate]
  have hread : unescaped ['{', '{', ' '] = ['{', '{', ' '] ∧
      unescaped [' ', '}', '}'] = [' ', '}', '}'] := by decide
  rw [← String.toList_inj, readBack_braced (hlist code), hlist, hlist, String.toList_ofList,
    unescaped_append (.inl (by simp; decide)), unescaped_append (.inr (by simp; decide)), hread.1,
    hread.2]

theorem keepsAdmitted_interpolate (h : IsSound code) (name : String) :
    keepsAdmitted name (some (readBack (interpolate code))) = true := by
  have hcode : Respelled code.toList (unescaped code.toList) := Crosses.unescaped h.plain
  rw [readBack_interpolate]
  refine keepsAdmitted_whole ?_ ?_
  · rw [IsPlainCode, String.toList_ofList]
    exact hcode.crosses h.plain
  · rw [String.toList_ofList]
    exact h.native.respelled hcode

/-! ## Code -/

theorem keepsAdmitted_code (h : IsCodePart code.toList)
    (hname : name ∈ ["s-if", "s-else-if", "s-transition"]) :
    keepsAdmitted name (some (readBack code)) = true := by
  suffices hread : ∀ rest ∈ ["if", "else-if", "transition"],
      keepsAdmitted ("s-" ++ rest) (some (readBack code)) = true by
    simp only [List.mem_cons, List.not_mem_nil, or_false] at hname
    rcases hname with rfl | rfl | rfl
    · exact hread "if" (by decide)
    · exact hread "else-if" (by decide)
    · exact hread "transition" (by decide)
  intro rest hrest
  apply keepsAdmitted_directive
  intro key d span hread
  simp only [List.mem_cons, List.not_mem_nil, or_false] at hrest
  rcases hrest with rfl | rfl | rfl
  all_goals
    obtain ⟨v, hv, hd⟩ := bind_eq_ok.1 hread
    cases hd
    simp [Directive.isAdmitted, isAdmitted_exprValue h.readBack.native.trim hv]

theorem IsCodePart.spaced {cs : List Char} (h : IsCodePart cs) :
    IsCodePart (' ' :: (cs ++ [' '])) where
  crosses := by
    obtain ⟨d, e, hcs⟩ := h.crosses
    exact ⟨d, e, .plain (by decide) (hcs.append (.plain (by decide) .nil))⟩
  native := by
    obtain ⟨ts, hts, hnative⟩ := h.native
    obtain ⟨ls, hls, hrun⟩ := hts.lexesTo (d := ' ') (by simp [Expr.dividers]) [] 0
    have hend : Expr.tokenizeFrom (0 + byteLength cs) 0 [' '] = .ok [] := rfl
    rw [hend] at hrun
    have hbehind : IsNative (cs ++ [' ']) := by
      refine ⟨ls, ?_, ?_⟩
      · rw [← Expr.tokenizeFrom_eq_ok, hrun]
        exact congrArg Except.ok (List.append_nil ls)
      · rw [Expr.tokens, hls]
        exact hnative
    exact hbehind.behind (.space _) fun vs hvs => hvs

theorem keepsAdmitted_bindBack (h : IsCodePart code.toList) (hname : IsPropertyName name) :
    keepsAdmitted name (some (readBack (bindBack code))) = true := by
  have hinner := h.spaced.collapsed.unescaped
  have hlist : (bindBack code).toList =
      ['{', '='] ++ ((' ' :: (code.toList ++ [' '])) ++ ['=', '}']) := by
    simp [bindBack]
  have hmark : ∀ c ∈ some '=', c ∉ entity := by
    rintro c ⟨⟩
    decide
  have hread : (readBack (bindBack code)).toList =
      '{' :: '=' :: (unescaped (collapse (' ' :: (code.toList ++ [' ']))) ++ ['=', '}']) := by
    rw [readBack_unbraced (by simp [hlist]), hlist, collapse_append (.inl (by simp; decide)),
      collapse_append (.inr (by simp; decide)), unescaped_append (.inl (by exact hmark)),
      unescaped_append (.inr (by exact hmark))]
    rfl
  have hframed : Framed (readBack (bindBack code)).toList := by
    rw [hread]
    exact .marked (by decide) (by decide) (EndsVisible.behind ⟨'}', rfl, by decide⟩ ('=' :: _))
  apply keepsAdmitted_property hname
  intro p span hp
  have htwoWay : twoWayCode? (readBack (bindBack code)) =
      some (unescaped (collapse (' ' :: (code.toList ++ [' '])))) := by
    rw [twoWayCode?, hframed.trim_eq, hread]
    simp
  simp only [readProperty, htwoWay] at hp
  obtain ⟨v, hv, hp⟩ := bind_eq_ok.1 hp
  obtain rfl := Except.ok.inj hp
  exact isAdmitted_exprValue hinner.native.trim hv

/-! ## Handlers -/

theorem isCodePart_modified {word cs : List Char} (hword : ∀ c ∈ word, isLetter c = true)
    (h : IsCodePart cs) : IsCodePart (word ++ ':' :: cs) where
  crosses := by
    obtain ⟨d, e, hcs⟩ := h.crosses
    have hplain : ∀ c ∈ word, isPlainChar c = true := fun c hc =>
      Expr.isPlainChar_of_isIdentPart (by simp [Expr.isIdentPart, Expr.isIdentStart, hword c hc])
    exact ⟨d, e, (Crosses.of_plain hplain d).append (.plain (by decide) hcs)⟩
  native := Expr.isNative_modified hword h.native

theorem isCodePart_modifiers {modifiers : List String}
    (hmodifiers : ∀ m ∈ modifiers, ∀ c ∈ m.toList, isLetter c = true) (h : IsCodePart code.toList) :
    IsCodePart (String.join (modifiers.map (· ++ ":")) ++ code).toList := by
  induction modifiers with
  | nil => simpa using h
  | cons m modifiers ih =>
    rw [List.forall_mem_cons] at hmodifiers
    have hrest := isCodePart_modified hmodifiers.1 (ih hmodifiers.2)
    simpa [String.join_cons, String.append_assoc] using hrest

theorem keepsAdmitted_handler {modifiers : List String}
    (hmodifiers : ∀ m ∈ modifiers, ∀ c ∈ m.toList, isLetter c = true) (h : IsCodePart code.toList)
    (event : String) : keepsAdmitted ("on-" ++ event)
      (some (readBack (String.join (modifiers.map (· ++ ":")) ++ code))) = true := by
  have hnative := (isCodePart_modifiers hmodifiers h).readBack.native
  generalize readBack (String.join (modifiers.map (· ++ ":")) ++ code) = value at hnative
  apply keepsAdmitted_listener
  intro l span hread
  simp only [readListener, Option.getD_some] at hread
  obtain ⟨v, hv, hl⟩ := bind_eq_ok.1 hread
  obtain rfl := Except.ok.inj hl
  have hcode : IsNative (spanModifiers [] value.toList).2 :=
    Expr.isNative_spanModifiers (by simp) hnative
  exact isAdmitted_exprValue hcode.trim hv

/-! ## Loops -/

theorem mem_collapseFrom {c : Char} {cs : List Char} {inRun : Bool} (h : c ∈ collapseFrom inRun cs)
    (hblank : isBlank c = true) : c = ' ' := by
  fun_induction collapseFrom inRun cs with
  | case1 => cases h
  | case2 d cs hd ih => exact ih h
  | case3 inRun d cs hd hrun ih =>
    rcases List.mem_cons.1 h with rfl | h
    · rfl
    · exact ih h
  | case4 inRun d cs hd ih =>
    rcases List.mem_cons.1 h with rfl | h
    · exact absurd hblank hd
    · exact ih h

theorem mem_replaceFrom {c : Char} {word new cs : List Char} {skip : Nat}
    (h : c ∈ replaceFrom word new skip cs) : c ∈ new ∨ c ∈ cs := by
  fun_induction replaceFrom word new skip cs with
  | case1 => cases h
  | case2 skip d cs ih => exact (ih h).imp_right (List.mem_cons_of_mem d)
  | case3 d cs hword ih =>
    rcases List.mem_append.1 h with h | h
    · exact .inl h
    · exact (ih h).imp_right (List.mem_cons_of_mem d)
  | case4 d cs hword ih =>
    rcases List.mem_cons.1 h with rfl | h
    · exact .inr List.mem_cons_self
    · exact (ih h).imp_right (List.mem_cons_of_mem d)

theorem isCodePart_tracked {h : Markup.Head} {list : String}
    (hkey : ∀ source ∈ h.key, Expr.IsSafeSource source) (hlist : IsInner list) :
    IsCodePart (list ++ keyClause h).toList := by
  obtain ⟨ts, hlex, hpasses⟩ := hlist.passes
  rcases keyClause_cases h with hnone | ⟨source, key, hsource, hcompile, -, hclause⟩
  · rw [hnone, String.append_empty]
    exact ⟨⟨0, 0, hlist.plain⟩, Expr.isNative_of_lexes hlex (hpasses.native 0)⟩
  · have hsound := Expr.isSound_compile hcompile (hkey source hsource)
    have hword : IsNative (" trackBy " ++ key.text).toList := by
      rw [String.toList_append]
      have hisWord : Expr.isWord "trackBy" = true := by decide
      have hlexTo : Expr.LexesTo " trackBy ".toList key.text.toList [Expr.wordToken "trackBy"] :=
        (Expr.LexesTo.space _).append ((Expr.lexesTo_word hisWord (by simp; decide)).append
          (Expr.LexesTo.space _))
      exact hsound.native.behind hlexTo fun vs hvs =>
        Expr.areNative_cons.2 ⟨.inr (.inr rfl), rfl, hvs⟩
    rw [hclause]
    refine ⟨⟨0, 0, Expr.plain_append hlist.plain (Expr.plain_append (Expr.plain_fixed (by decide))
      hsound.plain)⟩, ?_⟩
    rw [String.toList_append]
    refine hword.behind (hlex _ ?_) fun vs hvs => hpasses 0 vs hvs
    simp [Expr.Stops]
    decide

theorem not_braced_loop {h : Markup.Head} {l : Loop} (hloop : h.loop = some l)
    (hitem : isLoopName l.item = true) (code : String) (rest : List Char) :
    (Site.list.value h code).toList ≠ '{' :: '{' :: rest := by
  intro heq
  rw [isLoopName, Bool.and_eq_true, Bool.not_eq_true', List.all_eq_true] at hitem
  obtain ⟨c, cs, hcs⟩ := List.exists_cons_of_ne_nil (l := l.item.toList) (by simpa using hitem.1)
  have hc : isNameChar c = true := hitem.2 c (by simp [hcs])
  have hfirst : (Site.list.value h code).toList.head? = some c := by
    rw [Site.value, Site.front, hloop, Option.map_some, Option.getD_some]
    unfold loopNames
    split <;> simp [hcs]
  rw [heq] at hfirst
  obtain rfl := Option.some.inj hfirst
  exact absurd hc (by decide)

theorem readBack_loop {h : Markup.Head} {l : Loop} (hloop : h.loop = some l)
    (hitem : isLoopName l.item = true) (hindex : ∀ i ∈ l.iterator1, isLoopName i = true)
    (code : String) : ∃ cs, unescaped (collapse ("_l(" ++ code ++ ")" ++ keyClause h).toList) =
        '_' :: cs ∧ (readBack (Site.list.value h code)).toList =
        (loopNames l).toList ++ headerTail ('_' :: cs) := by
  obtain ⟨rest, hrest⟩ : ∃ rest, ("_l(" ++ code ++ ")" ++ keyClause h).toList = '_' :: rest :=
    ⟨'l' :: '(' :: (code.toList ++ ')' :: (keyClause h).toList), by simp⟩
  have hvalue : (Site.list.value h code).toList =
      (loopNames l).toList ++ ' ' :: 'i' :: 'n' :: ' ' :: '_' :: rest := by
    rw [← hrest]
    simp [Site.list_value hloop]
  have hnames := visible_loopNames hitem hindex
  have hkept : Verbatim (loopNames l).toList := verbatim_of_visible hnames
  have hlist : unescaped (collapse ('_' :: rest)) = '_' :: unescaped (collapse rest) :=
    unescaped_cons (by simp [List.isPrefixOf])
  have hin : collapse (' ' :: 'i' :: 'n' :: ' ' :: '_' :: rest) =
      ' ' :: 'i' :: 'n' :: ' ' :: collapse ('_' :: rest) := rfl
  have htail : ∀ cs, unescaped (' ' :: 'i' :: 'n' :: ' ' :: cs) =
      ' ' :: 'i' :: 'n' :: ' ' :: unescaped cs := fun cs =>
    unescaped_append (a := [' ', 'i', 'n', ' ']) (.inl (by simp; decide))
  refine ⟨unescaped (collapse rest), by rw [hrest, hlist], ?_⟩
  rw [readBack_unbraced (not_braced_loop hloop hitem code), hvalue,
    collapse_append (.inl fun c hc => (hnames c (List.mem_of_getLast? hc)).1), hkept.blanks, hin,
    unescaped_append (.inr (by simp; decide)), hkept.quotes, htail, hlist]
  rfl

theorem keepsAdmitted_loop {h : Markup.Head} {l : Loop} (hloop : h.loop = some l)
    (hitem : isLoopName l.item = true) (hindex : ∀ i ∈ l.iterator1, isLoopName i = true)
    (hkey : ∀ source ∈ h.key, Expr.IsSafeSource source) (hlist : IsInner ("_l(" ++ code ++ ")")) :
    keepsAdmitted "s-for" (some (readBack (Site.list.value h code))) = true := by
  have hpart := (isCodePart_tracked hkey hlist).collapsed.unescaped
  have hblank : ∀ c ∈ unescaped (collapse ("_l(" ++ code ++ ")" ++ keyClause h).toList),
      isBlank c = true → c = ' ' := by
    intro c hc hblank
    rcases mem_replaceFrom hc with hquote | hmem
    · obtain rfl := List.mem_singleton.1 hquote
      cases hblank
    · exact mem_collapseFrom hmem hblank
  obtain ⟨cs, hcs, hvalue⟩ := readBack_loop hloop hitem hindex code
  rw [hcs] at hpart hblank
  apply @keepsAdmitted_directive "for"
  intro key d span hread
  obtain ⟨d, hd, hpair⟩ := bind_eq_ok.1 hread
  cases hpair
  have hheader := @ofChars?_written l hitem hindex ('_' :: cs) (by simp; decide) (by simp)
  simp only [readLoop, Option.getD_some, hvalue, hheader] at hd
  obtain ⟨trackBy, htrackBy, hd⟩ := bind_eq_ok.1 hd
  obtain ⟨v, hv, hd⟩ := bind_eq_ok.1 hd
  obtain rfl := Except.ok.inj hd
  obtain ⟨hsplit, hsplitKey⟩ :=
    Expr.isNative_splitTrackBy hpart.native hblank (lexed_of_exprValue hv)
  have htracked : trackBy.all (·.isAdmitted) = true := by
    cases hkey : (splitTrackBy ('_' :: cs)).2 with
    | none =>
      rw [hkey] at htrackBy
      obtain rfl := Except.ok.inj htrackBy
      rfl
    | some key =>
      rw [hkey, Option.mapM_some] at htrackBy
      obtain ⟨w, hw, hsome⟩ := bind_eq_ok.1 htrackBy
      obtain rfl := Except.ok.inj hsome
      exact isAdmitted_exprValue (hsplitKey key hkey).trim hw
  simp [Directive.isAdmitted, isAdmitted_exprValue hsplit hv, htracked]

end VueToSan.San
