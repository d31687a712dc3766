import VueToSan.Proofs.ArgumentCode
import VueToSan.Proofs.AttributeSteps
import VueToSan.Proofs.BracedCode

/-!
# Calls of helpers in attributes

Classes, styles and lists are arguments of helpers. An argument is the expression that its code is
alone as long as that code has no filter. A bar in brackets is an operator, so the filter of an
argument is lost: it becomes an operator that San lacks.
-/

namespace VueToSan.Transform

open VueToSan.Markup VueToSan.Text
open VueToSan.Expr (Compiled Piped unlocatedList IsArgumentFor)

/-! ## Calls -/

/-- A code is a call of a helper with these arguments, up to the places in the code. -/
def CallsHelper (code helper : String) (args : List Expr.Node) : Prop :=
  ∃ q, Expr.parse code = .ok q ∧
    q.unlocated = ⟨.call default (.ofName helper) (unlocatedList args), [], default⟩

def IsUnmarkedSource (source : String) : Prop :=
  ∀ e, Expr.parse source = .ok e → ∀ f ∈ e.filters, f.isUnmarked

/-- An attribute is an interpolation of a call of a helper. It is read as the call if the sources
that the call is made of are free of the mark. -/
def InterpolatesCall (h : Head) (name helper : String) (sources : List String)
    (args : List Expr.Node) : Prop :=
  ∃ code, h.attr? name = some (interpolate code) ∧ CallsHelper code helper args ∧
    ((∀ source ∈ sources, IsUnmarkedSource source) → ∀ span, ∃ q, Expr.parse code = .ok q ∧
      San.readText (interpolate code).toList span = .ok ⟨.expr q, some (interpolate code)⟩)

def CompilesTo (source : String) (e : Expr.Node) : Prop :=
  ∃ compiled p, Expr.compile source = .ok compiled ∧ Expr.parse compiled.text = .ok p ∧
    p.filters = [] ∧ p.expression = e

/-- A source that compiles to the code of an expression if bars are operators. -/
def CompilesInside (source : String) (e : Expr.Node) : Prop :=
  ∃ compiled, Expr.compile source = .ok compiled ∧ Expr.parseExpression compiled.text = .ok e

theorem CompilesTo.inside {source : String} {e : Expr.Node} (h : CompilesTo source e) :
    CompilesInside source e := by
  obtain ⟨compiled, p, hcompile, hparse, hfilters, rfl⟩ := h
  exact ⟨compiled, hcompile, Expr.parseExpression_of_parse hparse hfilters⟩

/-! ## Arguments -/

structure IsItem (sources : List String) (text : String) (e : Expr.Node) : Prop where
  argument : IsArgumentFor text e
  plain : (∀ source ∈ sources, IsUnmarkedSource source) → Expr.IsPlainCode text

theorem isItem_quote (s : String) : IsItem [] (Expr.quote s) (.literal default (.string s)) where
  argument := Expr.isArgumentFor_of_reads (Expr.Constant.string s).readsAs
  plain _ := Expr.plain_quote s

def styleNode (entries : List (String × String)) : Expr.Node :=
  .object default (entries.map fun entry =>
    .keyed default (.string default entry.1) (.literal default (.string entry.2)))

theorem readsAs_styleObject (entries : List (String × String)) :
    Expr.ReadsAs false (styleObject entries) (.placed .free (styleNode entries)) := by
  have hfields : List.Forall₂ (fun p text => Expr.ReadsAs false text (.property p))
      (entries.map fun entry => Expr.Property.keyed default (.string default entry.1)
        (.literal default (.string entry.2)))
      (entries.map fun entry => Expr.quote entry.1 ++ ":" ++ Expr.quote entry.2) := by
    rw [List.forall₂_map_left_iff, List.forall₂_map_right_iff, List.forall₂_same]
    rintro ⟨name, value⟩ -
    exact Expr.readsAs_keyed (k := .string default name) (Expr.lexes_quote name false) rfl
      (Expr.Constant.string value).readsAs default
  have hobject := (Expr.readsAs_properties hfields).object false default
  exact (hobject.operand (p := .free) trivial).2

theorem isItem_styleObject (entries : List (String × String)) :
    IsItem [] (styleObject entries) (styleNode entries) where
  argument := Expr.isArgumentFor_of_reads (readsAs_styleObject entries)
  plain _ := by
    refine Expr.plain_braces (Expr.plain_joinWith (Expr.plain_fixed (by decide)) ?_)
    intro field hfield
    obtain ⟨⟨name, value⟩, -, rfl⟩ := List.mem_map.1 hfield
    exact Expr.plain_append (Expr.plain_append (Expr.plain_quote name)
      (Expr.plain_fixed (by decide))) (Expr.plain_quote value)

theorem IsItem.mono {sources sources' : List String} {text : String} {e : Expr.Node}
    (h : IsItem sources text e) (hsources : sources ⊆ sources') : IsItem sources' text e where
  argument := h.argument
  plain hall := h.plain fun source hsource => hall source (hsources hsource)

theorem CompilesInside.isItem {source : String} {e : Expr.Node} (h : CompilesInside source e) :
    ∃ code, IsCode source code ∧ IsItem [source] code e := by
  obtain ⟨compiled, hcompile, hparse⟩ := h
  refine ⟨compiled.text, ⟨compiled, hcompile, rfl⟩, Expr.isArgumentFor_of_parse hparse, ?_⟩
  exact fun hsources =>
    Expr.plain_compile hcompile (hsources source (List.mem_singleton_self source))

theorem interpolatesCall {h : Head} {name helper : String} {sources texts : List String}
    {args : List Expr.Node} (hname : Expr.isName helper = true)
    (hargs : List.Forall₂ (IsItem sources) texts args)
    (hattr : h.attr? name = some (interpolate (helper ++ "(" ++ joinWith ", " texts ++ ")"))) :
    InterpolatesCall h name helper sources args := by
  obtain ⟨q, hq, hcall⟩ := Expr.parse_call hname (hargs.imp fun _ _ hitem => hitem.argument)
  refine ⟨_, hattr, ⟨q, hq, hcall⟩, fun hsources span => ⟨q, hq, ?_⟩⟩
  have htexts : ∀ text ∈ texts, Expr.IsPlainCode text := by
    intro text htext
    obtain ⟨i, hi, rfl⟩ := List.getElem_of_mem htext
    have hitem := List.forall₂_iff_get.1 hargs
    exact (hitem.2 i hi (hitem.1 ▸ hi)).plain hsources
  have hword := Expr.isWord_of_isName hname
  have hplain : Expr.IsPlainCode (helper ++ "(" ++ joinWith ", " texts ++ ")") :=
    Expr.plain_append (Expr.plain_append (Expr.plain_append (Expr.plain_word hword)
      (Expr.plain_fixed (by decide))) (Expr.plain_joinWith (Expr.plain_fixed (by decide))
        htexts)) (Expr.plain_fixed (by decide))
  have hframed : Framed (helper ++ "(" ++ (joinWith ", " texts ++ ")")).toList :=
    Expr.framed_joined (Expr.framed_word hword) (by decide)
      (Expr.endsVisible_behind ⟨_, rfl, by decide⟩ _)
  rw [← String.append_assoc] at hframed
  rw [San.readText_interpolate hplain, San.readExpr, hframed.trim_eq, String.ofList_toList, hq]
  rfl

/-! ## Attributes -/

theorem interpolate_inj {code code' : String} :
    interpolate code = interpolate code' ↔ code = code' := by
  constructor
  · intro h
    have hlists := congrArg String.toList h
    rw [San.interpolate_toList, San.interpolate_toList] at hlists
    rw [← String.toList_inj]
    simpa using hlists
  · exact congrArg interpolate

theorem attr?_mergeAttr {h : Head} {name value : String} {parts : List String}
    (hname : name ∉ parts) : (mergeAttr h name parts value).attr? name = some value := by
  obtain ⟨steps, ⟨first, hfirst, rfl⟩, hmerge⟩ := mergeAttr_steps h name parts value
  have hdrops : Within (fun _ => False) (· ∈ parts) (parts.map .drop) := .drops fun _ => id
  rw [hmerge, Head.run_cons, attr?_run_of_apart (hdrops.apart id hname)]
  rcases hfirst with rfl | ⟨anchor, -, rfl⟩
  · exact attr?_apply_of_written rfl
  · exact attr?_apply_of_written rfl

def FixedStyle (h : Head) (e : Expr.Node) : Prop :=
  match h.staticStyle with
  | none => e = .literal default (.string "")
  | some text => ∃ entries, text = styleObject entries ∧ e = styleNode entries

def BoundStyle (h : Head) (e : Expr.Node) : Prop :=
  match h.styleBinding with
  | none => e = styleNode []
  | some source => CompilesTo source e

def ShownStyle (h : Head) (es : List Expr.Node) : Prop :=
  match shownTest? h with
  | none => es = []
  | some source => ∃ e, CompilesTo source e ∧ es = [e]

def styleSources (h : Head) : List String := h.styleBinding.toList ++ (shownTest? h).toList

theorem FixedStyle.isItem {h : Head} {e : Expr.Node} (he : FixedStyle h e) :
    IsItem [] (h.staticStyle.getD "''") e := by
  unfold FixedStyle at he
  split at he
  · rename_i hnone
    rw [hnone, he]
    exact isItem_quote ""
  · rename_i text hsome
    obtain ⟨entries, rfl, rfl⟩ := he
    rw [hsome]
    exact isItem_styleObject entries

theorem interpolatesCall_mergeStyle {h : Head} {parts : List String} {fixed : Expr.Node}
    {args : List Expr.Node} (hfixed : FixedStyle h fixed)
    (hargs : List.Forall₂ (IsItem (styleSources h)) parts args) :
    InterpolatesCall (mergeStyle h parts) "style" "_ms" (styleSources h) (fixed :: args) :=
  interpolatesCall (by decide) (.cons (hfixed.isItem.mono (List.nil_subset _)) hargs)
    (attr?_mergeAttr (by decide))

theorem withCode_of_isCode {α : Type} {source code : String} (h : IsCode source code) (a : α)
    (f : String → Edit α) : Edit.withCode source a f = f code := by
  obtain ⟨compiled, hcompile, rfl⟩ := h
  rw [Edit.withCode, Edit.withCompiled, hcompile]

theorem transformClass_calls {h : Head} {source : String} {e : Expr.Node}
    (hbinding : h.classBinding = some source) (he : CompilesInside source e) :
    ∃ h', transformClass h = .done h' ∧ InterpolatesCall h' "class" "_mc" [source]
      [.literal default (.string ((h.attr? "class").getD "")), e] := by
  obtain ⟨code, hcode, hitem⟩ := he.isItem
  refine ⟨_, by rw [transformClass, hbinding]; exact withCode_of_isCode hcode _ _, ?_⟩
  refine interpolatesCall (by decide)
    (.cons ((isItem_quote _).mono (List.nil_subset _)) (.cons hitem .nil))
    ((attr?_mergeAttr (by decide)).trans ?_)
  simp [joinWith, String.append_assoc]

theorem transformStyle_calls {h : Head} {fixed bound : Expr.Node} {shown : List Expr.Node}
    (hsome : styleSources h ≠ []) (hfixed : FixedStyle h fixed) (hbound : BoundStyle h bound)
    (hshown : ShownStyle h shown) :
    ∃ h', transformStyle h = .done h' ∧
      InterpolatesCall h' "style" "_ms" (styleSources h) (fixed :: bound :: shown) := by
  have htest : (h.attr? "v-show").filter (!allBlank ·) = shownTest? h := rfl
  unfold BoundStyle at hbound
  unfold ShownStyle at hshown
  rw [transformStyle, htest]
  -- Of the bound style and the condition there is at least one.
  cases hbinding : h.styleBinding with
  | none =>
    rw [hbinding] at hbound
    cases hshow : shownTest? h with
    | none => exact absurd (by rw [styleSources, hbinding, hshow]; rfl) hsome
    | some source =>
      rw [hshow] at hshown
      obtain ⟨e, he, rfl⟩ := hshown
      obtain ⟨code, hcode, hitem⟩ := he.inside.isItem
      refine ⟨_, withCode_of_isCode hcode _ _, interpolatesCall_mergeStyle hfixed ?_⟩
      rw [styleSources, hbinding, hshow, hbound]
      exact .cons ((isItem_styleObject []).mono (List.nil_subset _)) (.cons hitem .nil)
  | some source =>
    rw [hbinding] at hbound
    obtain ⟨code, hcode, hitem⟩ := hbound.inside.isItem
    cases hshow : shownTest? h with
    | none =>
      rw [hshow] at hshown
      subst hshown
      refine ⟨_, withCode_of_isCode hcode _ _, interpolatesCall_mergeStyle hfixed ?_⟩
      rw [styleSources, hbinding, hshow]
      exact .cons hitem .nil
    | some test =>
      rw [hshow] at hshown
      obtain ⟨e, he, rfl⟩ := hshown
      obtain ⟨code', hcode', hitem'⟩ := he.inside.isItem
      refine ⟨_, (withCode_of_isCode hcode _ _).trans (withCode_of_isCode hcode' _ _),
        interpolatesCall_mergeStyle hfixed ?_⟩
      rw [styleSources, hbinding, hshow]
      exact .cons (hitem.mono (by simp)) (.cons (hitem'.mono (by simp)) .nil)

theorem transformLoop_calls {h : Head} {l : Loop} {e : Expr.Node} (hloop : h.loop = some l)
    (hkey : ∀ source ∈ h.key, ∃ key, Expr.compile source = .ok key)
    (he : CompilesInside l.source e) :
    ∃ h' code, transformLoop h = .done h' ∧
      h'.attr? "s-for" = some (loopNames l ++ " in " ++ code ++ keyClause h) ∧
      CallsHelper code "_l" [e] := by
  obtain ⟨_, ⟨compiled, hcompile, rfl⟩, hitem⟩ := he.isItem
  obtain ⟨value, hdone⟩ := transformLoop_done hloop hcompile hkey
  have hname : Expr.isName "_l" = true := by decide
  obtain ⟨q, hq, hcall⟩ := Expr.parse_call hname (.cons hitem.argument .nil)
  refine ⟨_, _, hdone, (transformLoop_attr hloop hcompile hdone).trans ?_, q, hq, hcall⟩
  rw [Site.list_value hloop, Option.some_inj, ← String.toList_inj]
  simp [joinWith]

/-- The helpers for classes, styles and lists are called with the fixed parts and with the
expressions that the codes without filters are. -/
theorem helpers_called (h : Head) :
    (∀ source e, h.classBinding = some source → CompilesTo source e →
      ∃ h', transformClass h = .done h' ∧ InterpolatesCall h' "class" "_mc" [source]
        [.literal default (.string ((h.attr? "class").getD "")), e]) ∧
    (∀ fixed bound shown, styleSources h ≠ [] → FixedStyle h fixed → BoundStyle h bound →
      ShownStyle h shown →
      ∃ h', transformStyle h = .done h' ∧
        InterpolatesCall h' "style" "_ms" (styleSources h) (fixed :: bound :: shown)) ∧
    ∀ l e, h.loop = some l → (∀ source ∈ h.key, ∃ key, Expr.compile source = .ok key) →
      CompilesTo l.source e →
      ∃ h' code, transformLoop h = .done h' ∧
        h'.attr? "s-for" = some (loopNames l ++ " in " ++ code ++ keyClause h) ∧
        CallsHelper code "_l" [e] :=
  ⟨fun _ _ hbinding he => transformClass_calls hbinding he.inside,
    fun _ _ _ => transformStyle_calls,
    fun _ _ hloop hkey he => transformLoop_calls hloop hkey he.inside⟩

theorem exists_compilesTo {source : String}
    (h : (Expr.compile source).toOption.any (fun compiled =>
      (Expr.parse compiled.text).toOption.any (·.filters.isEmpty)) = true) :
    ∃ e, CompilesTo source e := by
  obtain ⟨compiled, hcompile, hparse⟩ := (Option.any_eq_true _ _).1 h
  obtain ⟨p, hp, hfilters⟩ := (Option.any_eq_true _ _).1 hparse
  rw [toOption_eq_some] at hcompile hp
  exact ⟨_, compiled, p, hcompile, hp, List.isEmpty_iff.1 hfilters, rfl⟩

def sampleHelperHead : Head where
  tag := "li"
  attrs := [("v-for", "x in f(a, b)"), (":key", "x"), ("class", "it's"), (":class", "[a, 'x | y']"),
    ("style", "color: red"), (":style", "\x7bheight: h\x7d"), ("v-show", "a || b")]
  loop := some ⟨"f(a, b)", "x", none, none⟩
  key := some "x"
  classBinding := some "[a, 'x | y']"
  staticStyle := some "\x7b'color':'red'\x7d"
  styleBinding := some "\x7bheight: h\x7d"

theorem sampleHelperHead_called :
    ∃ classes style shown list, CompilesTo "[a, 'x | y']" classes ∧
      CompilesTo "\x7bheight: h\x7d" style ∧ CompilesTo "a || b" shown ∧
      CompilesTo "f(a, b)" list ∧
      (∃ h', transformClass sampleHelperHead = .done h' ∧
        InterpolatesCall h' "class" "_mc" ["[a, 'x | y']"]
          [.literal default (.string "it's"), classes]) ∧
      (∃ h', transformStyle sampleHelperHead = .done h' ∧
        InterpolatesCall h' "style" "_ms" ["\x7bheight: h\x7d", "a || b"]
          [styleNode [("color", "red")], style, shown]) ∧
      ∃ h' code, transformLoop sampleHelperHead = .done h' ∧
        h'.attr? "s-for" = some ("x in " ++ code ++ keyClause sampleHelperHead) ∧
        CallsHelper code "_l" [list] := by
  obtain ⟨classes, hclasses⟩ : ∃ e, CompilesTo "[a, 'x | y']" e :=
    exists_compilesTo (by decide +kernel)
  obtain ⟨style, hstyle⟩ : ∃ e, CompilesTo "\x7bheight: h\x7d" e :=
    exists_compilesTo (by decide +kernel)
  obtain ⟨shown, hshown⟩ : ∃ e, CompilesTo "a || b" e := exists_compilesTo (by decide +kernel)
  obtain ⟨list, hlist⟩ : ∃ e, CompilesTo "f(a, b)" e := exists_compilesTo (by decide +kernel)
  have hkey : (Expr.compile "x").toOption.isSome = true := by decide +kernel
  obtain ⟨key, hkey⟩ := Option.isSome_iff_exists.1 hkey
  rw [toOption_eq_some] at hkey
  obtain ⟨hclass, hstyles, hloop⟩ := helpers_called sampleHelperHead
  refine ⟨classes, style, shown, list, hclasses, hstyle, hshown, hlist,
    hclass _ classes rfl hclasses, ?_, ?_⟩
  · exact hstyles (styleNode [("color", "red")]) style [shown] (by decide) ⟨_, rfl, rfl⟩ hstyle
      ⟨shown, hshown, rfl⟩
  · refine hloop _ list rfl ?_ hlist
    rintro source ⟨⟩
    exact ⟨key, hkey⟩

def filteredClassHead : Head where
  tag := "p"
  attrs := [(":class", "a | f")]
  classBinding := some "a | f"

def barsNames : Expr.Node → Bool
  | .binary _ .bitOr (.identifier _) (.identifier _) => true
  | _ => false

/-- The filter of a class becomes an operator in the call, one that San lacks. -/
theorem filter_in_class_is_operator :
    ∃ p h' l a f, Expr.parse "a | f" = .ok p ∧ p.filters.map (·.name) = ["f"] ∧
      (Expr.compile "a | f").toOption.map (·.text) = some "a | f" ∧
      transformClass filteredClassHead = .done h' ∧
      h'.attr? "class" = some "\x7b\x7b _mc('', a | f) \x7d\x7d" ∧
      CallsHelper "_mc('', a | f)" "_mc"
        [.literal default (.string ""), .binary l .bitOr (.identifier a) (.identifier f)] ∧
      Expr.BinaryOp.bitOr ∉ Expr.admittedBinary := by
  have hparse : (Expr.parse "a | f").toOption.any (·.filters.map (·.name) == ["f"]) = true := by
    decide +kernel
  have hcompile : (Expr.compile "a | f").toOption.map (·.text) = some "a | f" := by decide +kernel
  have hinside : (Expr.parseExpression "a | f").toOption.any barsNames = true := by decide +kernel
  have hvalue : (transformClass filteredClassHead).value.attr? "class" =
      some (interpolate "_mc('', a | f)") := by
    decide +kernel
  obtain ⟨p, hp, hfilters⟩ := (Option.any_eq_true _ _).1 hparse
  obtain ⟨compiled, hcompiled, htext⟩ := Option.map_eq_some_iff.1 hcompile
  obtain ⟨e, he, hshape⟩ := (Option.any_eq_true _ _).1 hinside
  rw [toOption_eq_some] at hp hcompiled he
  unfold barsNames at hshape
  split at hshape
  · rename_i l a f
    obtain ⟨h', hdone, code, hattr, hcall, -⟩ := transformClass_calls (h := filteredClassHead) rfl
      ⟨compiled, hcompiled, htext ▸ he⟩
    rw [hdone, Edit.value, hattr, Option.some_inj, interpolate_inj] at hvalue
    subst hvalue
    exact ⟨p, h', l, a, f, hp, eq_of_beq hfilters, hcompile, hdone, hattr, hcall, by decide⟩
  · cases hshape

end VueToSan.Transform
