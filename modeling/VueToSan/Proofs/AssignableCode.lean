import VueToSan.Proofs.AttributeSteps
import VueToSan.Proofs.ParseableCode
import VueToSan.Proofs.ReadLoops

/-!
# Code that can be assigned to

A name, a field or an item of a source is one in the code as well if what is accessed is one operand
there: a sign or an equality that stands without parentheses takes the access to its last operand,
and a length that is known becomes a number. Models and synchronised bindings then flow back to what
the source names, and keys of loops are the names of the source.
-/

namespace VueToSan.Expr

open VueToSan.Text

/-! ## Operands that are accessed -/

def Constant.isSigned (v : Constant) : Bool := v.emit.toList.head? == some '-'

/-- Whether the code of an expression, put in parentheses if it needs them, is one operand, behind
which accesses belong to all of it. -/
def Node.isOneOperand : Node → Bool
  | .literal _ value => !value.constant.isSigned
  | .field l o name => ((Node.field l o name).constant?.map (!·.isSigned)).getD o.isOneOperand
  | .index _ o _ => o.isOneOperand
  | .call _ f _ => f.isOneOperand
  | .unary l op a => (Node.unary l op a).constant?.any (!·.isSigned)
  | .binary l op a b => !op.isEquality || (Node.binary l op a b).constant?.any (!·.isSigned)
  | _ => true

def ReadsOperand (dot : Bool) (text : String) : Prop := ∃ e, ObjectReads dot e text

theorem readsOperand_constant (v : Constant) (h : v.isSigned = false) :
    ReadsOperand (!v.isWhole) v.emit := by
  cases v with
  | number x =>
    obtain ⟨negative, cs, e, htext, -, hread⟩ := objectReads_number x
    cases negative with
    | false =>
      rw [Constant.emit, htext]
      exact ⟨e, hread⟩
    | true =>
      have hsign : (formatNumber x).toList.head? = some '-' := by
        rw [htext, String.toList_ofList]
        rfl
      rw [Constant.isSigned, Constant.emit, hsign] at h
      cases h
  | string s => exact ⟨_, (Constant.string s).operand (p := .object) (by simp)⟩
  | boolean b => exact ⟨_, (Constant.boolean b).operand (p := .object) (by simp)⟩
  | null => exact ⟨_, Constant.null.operand (p := .object) (by simp)⟩
  | undefined => exact ⟨_, Constant.undefined.operand (p := .object) (by simp)⟩

theorem ObjectReads.weaken {e : Node} {text : String} (h : ObjectReads true e text) (dot : Bool) :
    ObjectReads dot e text := by
  obtain ⟨hstart, ts, hlex, hwrites⟩ := h
  exact ⟨hstart, ts, hlex.weaken dot, hwrites⟩

theorem readsOperand_parens {text : String} (h : ReadsAdmitted text) (dot : Bool) :
    ReadsOperand dot ("(" ++ text ++ ")") := by
  obtain ⟨e, -, he⟩ := h
  exact ⟨e, ObjectReads.weaken (Operand.parens .object he) dot⟩

variable {code : Code}

theorem readsOperand_wrapped {e : Node} (hwrap : wrap code.text e = "(" ++ code.text ++ ")")
    (h : generate e = .ok code) (hsafe : e.isDotSafe = true) (hspelled : e.isSpelled = true)
    (dot : Bool) : ReadsOperand dot (wrap code.text e) := by
  rw [hwrap]
  exact readsOperand_parens (generate_parses e h hsafe hspelled).admitted dot

/-- The code of an expression that is one operand is read as one; a point may stand behind it unless
it ends with a whole number. -/
theorem generate_operand : ∀ (e : Node) {code : Code}, generate e = .ok code →
    e.isOneOperand = true → e.isDotSafe = true → e.isSpelled = true →
    ReadsOperand (!e.endsWhole) (wrap code.text e)
  | .identifier name, code, h, _, _, hs => by
    obtain rfl := Except.ok.inj h
    exact ⟨_, (bare_name hs _).objectReads rfl⟩
  | .literal l value, code, h, ho, _, _ => by
    obtain rfl := Except.ok.inj h
    rw [Node.isOneOperand, Bool.not_eq_true'] at ho
    exact readsOperand_constant value.constant ho
  | .field l o name, code, h, ho, hd, hs => by
    rw [Node.isOneOperand, constant?_of_generate h] at ho
    rw [Node.endsWhole, constant?_of_generate h]
    rw [Node.isDotSafe, Bool.and_eq_true, Bool.not_eq_true'] at hd
    rw [Node.isSpelled, Bool.and_eq_true] at hs
    obtain ⟨c, hc, hcode⟩ := generate_field_ok h
    rcases fieldCode_cases c (wrap c.text o) name.text with ⟨x, hfold⟩ | ⟨hnone, htext⟩
    · rw [hcode, hfold] at ho ⊢
      rw [Code.ofConstant, Option.map_some, Option.getD_some, Bool.not_eq_true'] at ho
      exact readsOperand_constant (.number x) ho
    · rw [hcode, hnone, Option.map_none, Option.getD_none] at ho
      obtain ⟨x, hx⟩ := generate_operand o hc ho hd.2 hs.1
      -- The object does not end with a whole number, so the point behind it is not taken into one.
      rw [hd.1] at hx
      have hobject : Operand .object x (wrap c.text o) := hx
      have hwrap : wrap code.text (.field l o name) = wrap c.text o ++ "." ++ name.text :=
        (congrArg Code.text hcode).trans htext
      rw [hwrap]
      exact ⟨_, (hobject.field hs.2 _ default).objectReads rfl⟩
  | .index l o i, code, h, ho, hd, hs => by
    rw [Node.isOneOperand] at ho
    rw [Node.isDotSafe, Bool.and_eq_true] at hd
    rw [Node.isSpelled, Bool.and_eq_true] at hs
    obtain ⟨c, d, hc, hi, rfl⟩ := generate_index_ok h
    obtain ⟨x, hx⟩ := generate_operand o hc ho hd.1 hs.1
    obtain ⟨y, hy⟩ := (generate_parses i hi hd.2 hs.2).whole
    exact ⟨_, (hx.index hy _ default).objectReads rfl⟩
  | .call l f args, code, h, ho, hd, hs => by
    rw [Node.isOneOperand] at ho
    rw [Node.isDotSafe, Bool.and_eq_true] at hd
    rw [Node.isSpelled, Bool.and_eq_true] at hs
    obtain ⟨c, texts, hc, ht, rfl⟩ := generate_call_ok h
    obtain ⟨x, hx⟩ := generate_operand f hc ho hd.1 hs.1
    obtain ⟨es, -, hes⟩ := exists_items (generateList_parses args ht hd.2 hs.2)
    exact ⟨_, (hx.call hes _ default).objectReads rfl⟩
  | .unary l op a, code, h, ho, _, _ => by
    rw [Node.isOneOperand, constant?_of_generate h] at ho
    rw [Node.endsWhole, constant?_of_generate h]
    obtain ⟨-, c, -, ⟨_, v, -, -, rfl⟩ | ⟨-, rfl⟩⟩ := generate_unary_ok h
    · exact readsOperand_constant v (by simpa [Code.ofConstant] using ho)
    · cases ho
  | .binary l op a b, code, h, ho, hd, hs => by
    -- An equality gets no parentheses, so that only its constant can be one operand.
    by_cases hequality : op.isEquality = true
    · rw [Node.isOneOperand, hequality, constant?_of_generate h] at ho
      rw [Node.endsWhole, hequality, constant?_of_generate h]
      rw [wrap, if_pos hequality]
      obtain ⟨-, c, d, -, -, ⟨_, _, v, -, -, -, rfl⟩ | ⟨-, rfl⟩⟩ := generate_binary_ok h
      · exact readsOperand_constant v (by simpa [Code.ofConstant] using ho)
      · cases ho
    · exact readsOperand_wrapped (by rw [wrap, if_neg hequality]) h hd hs _
  | .logical .., code, h, _, hd, hs => readsOperand_wrapped rfl h hd hs _
  | .conditional .., code, h, _, hd, hs => readsOperand_wrapped rfl h hd hs _
  | .template l parts, code, h, _, hd, hs => by
    rw [Node.isDotSafe] at hd
    rw [Node.isSpelled] at hs
    obtain ⟨texts, ht, ⟨rfl, rfl⟩ | ⟨hne, rfl⟩⟩ := generate_template_ok h
    · exact readsOperand_constant (.string "") rfl
    · obtain ⟨first, rest, rfl⟩ := List.exists_cons_of_ne_nil (generateParts_ne_nil ht hne)
      have hrows := generateParts_parses parts ht hd hs
      rw [List.forall_mem_cons] at hrows
      obtain ⟨⟨dot, hfirst⟩, hrest⟩ := hrows
      exact readsOperand_parens (rowReads_sum hrest hfirst).whole _
  | .array l es, code, h, _, hd, hs => by
    rw [Node.isDotSafe] at hd
    rw [Node.isSpelled] at hs
    obtain ⟨texts, ht, rfl⟩ := generate_array_ok h
    obtain ⟨xs, -, hxs⟩ := exists_items (generateList_parses es ht hd hs)
    exact ⟨_, (hxs.array _ default).objectReads rfl⟩
  | .object l ps, code, h, _, hd, hs => by
    rw [Node.isDotSafe] at hd
    rw [Node.isSpelled] at hs
    obtain ⟨codes, hc, rfl⟩ := generate_object_ok h
    obtain ⟨qs, -, hqs⟩ := generateProperties_parses ps hc hd hs
    exact ⟨_, ObjectReads.weaken (operand_object hqs .object) _⟩

/-! ## References -/

/-- Two names, fields of one name, or items: what can be assigned to in one tree is of the same kind
in the other, and has the same name. -/
def Node.SameReference : Node → Node → Prop
  | .identifier n, .identifier m => n.text = m.text
  | .field _ _ n, .field _ _ m => n.text = m.text
  | .index .., .index .. => True
  | _, _ => False

theorem Node.SameReference.unlocated {e x a : Node} (h : e.SameReference x)
    (ha : a.unlocated = x.unlocated) : e.SameReference a := by
  cases e <;> cases x <;> simp only [SameReference] at h <;> cases a <;>
    simp_all [Node.unlocated, Name.unlocated, SameReference]

/-- An expression without filters whose code is assigned to as the expression is: it is no length
that is known, and what it accesses is one operand and no whole number in front of a point. -/
structure Piped.IsReference (e : Piped) : Prop where
  filters : e.filters = []
  unfolded : e.expression.constant? = none
  operand : e.expression.isOneOperand = true
  safe : e.expression.isDotSafe = true

instance (e : Piped) : Decidable e.IsReference :=
  decidable_of_iff (e.filters.isEmpty = true ∧ e.expression.constant?.isNone = true ∧
    e.expression.isOneOperand = true ∧ e.expression.isDotSafe = true)
    ⟨fun h => ⟨List.isEmpty_iff.1 h.1, Option.isNone_iff_eq_none.1 h.2.1, h.2.2.1, h.2.2.2⟩,
      fun h => ⟨List.isEmpty_iff.2 h.filters, Option.isNone_iff_eq_none.2 h.unfolded, h.operand,
        h.safe⟩⟩

theorem generate_reference {e : Node} {code : Code} (h : generate e = .ok code)
    (hassignable : (⟨some e, code⟩ : Compiled).isAssignable = true) (hunfolded : e.constant? = none)
    (ho : e.isOneOperand = true) (hd : e.isDotSafe = true) (hs : e.isSpelled = true) :
    ∃ x, ReadsAs false code.text (.placed .free x) ∧ e.SameReference x := by
  cases e with
  | identifier name =>
    obtain rfl := Except.ok.inj h
    exact ⟨_, ((bare_name hs false).operand (p := .free) trivial).2, rfl⟩
  | field l o name =>
    rw [Node.isOneOperand, hunfolded, Option.map_none, Option.getD_none] at ho
    rw [Node.isDotSafe, Bool.and_eq_true, Bool.not_eq_true'] at hd
    rw [Node.isSpelled, Bool.and_eq_true] at hs
    rw [constant?_of_generate h] at hunfolded
    obtain ⟨c, hc, hcode⟩ := generate_field_ok h
    obtain ⟨x, hx⟩ := generate_operand o hc ho hd.2 hs.1
    rw [hd.1] at hx
    have hobject : Operand .object x (wrap c.text o) := hx
    rcases fieldCode_cases c (wrap c.text o) name.text with ⟨y, hfold⟩ | ⟨-, htext⟩
    · rw [hcode, hfold] at hunfolded
      cases hunfolded
    · rw [hcode, htext]
      exact ⟨_, ((hobject.field hs.2 false default).operand (p := .free) trivial).2, rfl⟩
  | index l o i =>
    rw [Node.isOneOperand] at ho
    rw [Node.isDotSafe, Bool.and_eq_true] at hd
    rw [Node.isSpelled, Bool.and_eq_true] at hs
    obtain ⟨c, d, hc, hi, rfl⟩ := generate_index_ok h
    obtain ⟨x, hx⟩ := generate_operand o hc ho hd.1 hs.1
    obtain ⟨y, hy⟩ := (generate_parses i hi hd.2 hs.2).whole
    exact ⟨_, ((hx.index hy false default).operand (p := .free) trivial).2, trivial⟩
  | _ => cases hassignable

theorem parse_assignable {source : String} {e : Piped} {compiled : Compiled}
    (hparse : parse source = .ok e) (hcompile : compile source = .ok compiled)
    (hassignable : compiled.isAssignable = true) (he : e.IsReference) :
    ∃ p, parse compiled.text = .ok p ∧ p.filters = [] ∧ e.expression.SameReference p.expression := by
  obtain ⟨hspelled, -⟩ := parse_isSpelled hparse
  obtain ⟨base, hbase, htext⟩ := compile_ok_unfiltered hparse hcompile he.filters
  have hexpression := Transform.compiled_expression hparse hcompile
  rw [Compiled.isAssignable, hexpression] at hassignable
  obtain ⟨x, hx, hsame⟩ :=
    generate_reference hbase hassignable he.unfolded he.operand he.safe hspelled
  rw [htext] at hx
  obtain ⟨p, hp, hfilters, hread⟩ := parse_unfiltered hx
  exact ⟨p, hp, hfilters, hsame.unlocated hread⟩

end VueToSan.Expr

namespace VueToSan.Transform

open VueToSan.Markup VueToSan.Text

/-! ## Two-way bindings -/

/-- A value is read as a two-way binding of what an expression refers to. -/
def FlowsBack (value : String) (e : Expr.Node) : Prop :=
  ∃ code p, value = bindBack code ∧ Expr.parse code = .ok p ∧ p.filters = [] ∧
    e.SameReference p.expression ∧ ∀ name span, ∃ property : San.Property,
      San.readProperty name (some value) span = .ok property ∧ property.twoWay = true ∧
        property.value.expr? = some p

theorem flowsBack_bindBack {source : String} {e : Expr.Piped} {compiled : Expr.Compiled}
    (hparse : Expr.parse source = .ok e) (hcompile : Expr.compile source = .ok compiled)
    (hassignable : compiled.isAssignable = true) (he : e.IsReference) :
    FlowsBack (bindBack compiled.text) e.expression := by
  obtain ⟨p, hp, hfilters, hsame⟩ := Expr.parse_assignable hparse hcompile hassignable he
  have hframed := Expr.framed_compile (Expr.allBlank_of_parse hparse) hcompile
  refine ⟨compiled.text, p, rfl, hp, hfilters, hsame, fun name span => ?_⟩
  obtain ⟨v, hread, hexpr⟩ := readExprValue_of_trim hframed.trim_spaced hp span
  refine ⟨⟨name, v, some (.source (bindBack compiled.text)), true⟩, ?_, rfl, hexpr⟩
  simp only [San.readProperty, twoWayCode?_bindBack, hread, ok_bind, pure_eq_ok]

variable {h h' : Head} {source : String} {e : Expr.Piped}

theorem transformModel_flowsBack {d : Directive} (hmodel : h.directive? "model" = some d)
    (hparse : Expr.parse d.value = .ok e) (he : e.IsReference)
    (hdone : transformModel h = .done h') :
    ∃ value, h'.attr? (modelAttr h) = some value ∧ FlowsBack value e.expression := by
  rw [transformModel, hmodel] at hdone
  obtain ⟨compiled, hcompile, hdone⟩ := Edit.withCompiled_eq_done.1 hdone
  split at hdone
  · rename_i hassignable
    cases hdone
    exact ⟨_, Entries.get?_replace_self, flowsBack_bindBack hparse hcompile hassignable he⟩
  · cases hdone

theorem transformBinding_flowsBack {key : String} {context context' : Context}
    (hsource : (Site.sync key).source? h = some source) (hparse : Expr.parse source = .ok e)
    (he : e.IsReference) (hdone : transformBinding key (h, context) = .done (h', context')) :
    ∃ value, h'.attr? (boundTarget key) = some value ∧ FlowsBack value e.expression := by
  obtain ⟨hsync, hattr⟩ := Option.ite_none_right_eq_some.1 hsource
  rw [Bool.and_eq_true, Bool.not_eq_true'] at hsync
  rw [bindingParts] at hsync
  simp only [transformBinding, hsync.1, hsync.2, hattr, Bool.false_eq_true, if_false, if_true,
    Option.getD_some] at hdone
  obtain ⟨compiled, hcompile, hdone⟩ := Edit.withCompiled_eq_done.1 hdone
  split at hdone
  · rename_i hassignable
    cases hdone
    exact ⟨_, Entries.get?_replace_self, flowsBack_bindBack hparse hcompile hassignable he⟩
  · cases hdone

/-! ## Keys -/

theorem compile_isIdentifier {key : Expr.Compiled} (hparse : Expr.parse source = .ok e)
    (hcompile : Expr.compile source = .ok key) (hidentifier : key.isIdentifier = true)
    (hfilters : e.filters = []) :
    ∃ name : Expr.Name, e.expression = .identifier name ∧ key.text = name.text := by
  obtain ⟨base, hbase, htext⟩ := Expr.compile_ok_unfiltered hparse hcompile hfilters
  rw [Expr.Compiled.isIdentifier, compiled_expression hparse hcompile, Option.any_some]
    at hidentifier
  cases hnode : e.expression with
  | identifier name =>
    rw [hnode] at hbase
    obtain rfl := Except.ok.inj hbase
    exact ⟨name, rfl, htext.symm⟩
  | _ =>
    rw [hnode] at hidentifier
    cases hidentifier

theorem transformLoop_tracks {l : Loop} {key : Expr.Compiled} (hloop : h.loop = some l)
    (hkey : h.key = some source) (hcompile : Expr.compile source = .ok key)
    (hidentifier : key.isIdentifier = true) (hdone : transformLoop h = .done h') :
    ∃ list, IsCode l.source list ∧ h'.attr? "s-for" =
      some (loopNames l ++ " in _l(" ++ list ++ ")" ++ " trackBy " ++ key.text) := by
  obtain ⟨list, hlist⟩ := exists_compiled_list hloop hdone
  have hclause : trackByClause key = " trackBy " ++ key.text := by
    rw [trackByClause, if_pos hidentifier]
  refine ⟨list.text, ⟨list, hlist, rfl⟩, (transformLoop_attr hloop hlist hdone).trans ?_⟩
  rw [Site.list_value hloop, keyClause_some hkey hcompile, hclause, ← String.append_assoc]

/-- A source that can be assigned to compiles to code that can be, and models and synchronised
bindings flow back to it; a name as the key of a loop stays that name. -/
theorem assignable_kept {compiled : Expr.Compiled} (hparse : Expr.parse source = .ok e)
    (hcompile : Expr.compile source = .ok compiled) :
    (e.IsReference →
      (compiled.isAssignable = true → ∃ p, Expr.parse compiled.text = .ok p ∧ p.filters = [] ∧
        e.expression.SameReference p.expression) ∧
      (∀ h h' d, Head.directive? h "model" = some d → d.value = source →
        transformModel h = .done h' →
        ∃ value, h'.attr? (modelAttr h) = some value ∧ FlowsBack value e.expression) ∧
      ∀ h h' key context context', (Site.sync key).source? h = some source →
        transformBinding key (h, context) = .done (h', context') →
        ∃ value, h'.attr? (boundTarget key) = some value ∧ FlowsBack value e.expression) ∧
    (compiled.isIdentifier = true → e.filters = [] →
      ∃ name : Expr.Name, e.expression = .identifier name ∧ compiled.text = name.text ∧
        ∀ h h' l, Head.loop h = some l → h.key = some source → transformLoop h = .done h' →
          ∃ list, IsCode l.source list ∧ h'.attr? "s-for" =
            some (loopNames l ++ " in _l(" ++ list ++ ")" ++ " trackBy " ++ name.text)) := by
  refine ⟨fun he => ⟨fun hassignable => Expr.parse_assignable hparse hcompile hassignable he,
    fun h h' d hmodel hvalue => transformModel_flowsBack hmodel (hvalue ▸ hparse) he,
    fun h h' key context context' hsource => transformBinding_flowsBack hsource hparse he⟩,
    fun hidentifier hfilters => ?_⟩
  obtain ⟨name, hname, htext⟩ := compile_isIdentifier hparse hcompile hidentifier hfilters
  refine ⟨name, hname, htext, fun h h' l hloop hkey hdone => ?_⟩
  rw [← htext]
  exact transformLoop_tracks hloop hkey hcompile hidentifier hdone

def sampleReference : String := "(a || b).items[-i].name"

def sampleReferenceHead : Head where
  tag := "input"
  attrs := [("v-model", sampleReference), (":size.sync", sampleReference), ("v-for", "x in xs"),
    (":key", "x")]
  loop := some ⟨"xs", "x", none, none⟩
  key := some "x"
  directives := [⟨"model", "v-model", sampleReference, none, []⟩]

theorem sampleReference_kept :
    (∃ e compiled p, Expr.parse sampleReference = .ok e ∧
      Expr.compile sampleReference = .ok compiled ∧ compiled.isAssignable = true ∧
      Expr.parse compiled.text = .ok p ∧ p.filters = [] ∧
      e.expression.SameReference p.expression ∧
      (∃ h' value, transformModel sampleReferenceHead = .done h' ∧
        h'.attr? "value" = some value ∧ FlowsBack value e.expression) ∧
      ∃ h' context value, transformBinding ":size.sync" (sampleReferenceHead, {}) =
          .done (h', context) ∧
        h'.attr? "size" = some value ∧ FlowsBack value e.expression) ∧
      ∃ h' list, transformLoop sampleReferenceHead = .done h' ∧ IsCode "xs" list ∧
        h'.attr? "s-for" = some ("x" ++ " in _l(" ++ list ++ ")" ++ " trackBy " ++ "x") := by
  have hparse : (Expr.parse sampleReference).toOption.any (fun e => decide e.IsReference) = true := by
    decide +kernel
  have hcompile : (Expr.compile sampleReference).toOption.any (·.isAssignable) = true := by
    decide +kernel
  obtain ⟨e, he, hreference⟩ := (Option.any_eq_true _ _).1 hparse
  obtain ⟨compiled, hcompiled, hassignable⟩ := (Option.any_eq_true _ _).1 hcompile
  rw [toOption_eq_some] at he hcompiled
  rw [decide_eq_true_eq] at hreference
  obtain ⟨hcode, hmodel, hsync⟩ := (assignable_kept he hcompiled).1 hreference
  obtain ⟨p, hp, hfilters, hsame⟩ := hcode hassignable
  refine ⟨⟨e, compiled, p, he, hcompiled, hassignable, hp, hfilters, hsame, ?_, ?_⟩, ?_⟩
  · have hdone : transformModel sampleReferenceHead =
        .done (transformModel sampleReferenceHead).value :=
      Edit.eq_done_of_error? (by decide +kernel)
    have hdirective : sampleReferenceHead.directive? "model" =
        some ⟨"model", "v-model", sampleReference, none, []⟩ := by
      decide +kernel
    have hattr : modelAttr sampleReferenceHead = "value" := by decide +kernel
    obtain ⟨value, hvalue, hflows⟩ := hmodel _ _ _ hdirective rfl hdone
    rw [hattr] at hvalue
    exact ⟨_, value, hdone, hvalue, hflows⟩
  · obtain ⟨⟨h', context⟩, hdone⟩ :
        ∃ site, transformBinding ":size.sync" (sampleReferenceHead, {}) = .done site :=
      ⟨_, Edit.eq_done_of_error? (by decide +kernel)⟩
    have hsource : (Site.sync ":size.sync").source? sampleReferenceHead = some sampleReference := by
      decide +kernel
    have hattr : boundTarget ":size.sync" = "size" := by decide +kernel
    obtain ⟨value, hvalue, hflows⟩ := hsync _ _ _ _ _ hsource hdone
    rw [hattr] at hvalue
    exact ⟨h', context, value, hdone, hvalue, hflows⟩
  · have hdone : transformLoop sampleReferenceHead = .done (transformLoop sampleReferenceHead).value :=
      Edit.eq_done_of_error? (by decide +kernel)
    have hparse : (Expr.parse "x").toOption.any (·.filters.isEmpty) = true := by decide +kernel
    have hcompile : (Expr.compile "x").toOption.any (fun key => key.isIdentifier && key.text == "x") =
        true := by
      decide +kernel
    obtain ⟨k, hk, hfilters⟩ := (Option.any_eq_true _ _).1 hparse
    obtain ⟨key, hkey, hboth⟩ := (Option.any_eq_true _ _).1 hcompile
    rw [toOption_eq_some] at hk hkey
    rw [Bool.and_eq_true, beq_iff_eq] at hboth
    obtain ⟨name, -, htext, hloop⟩ :=
      (assignable_kept hk hkey).2 hboth.1 (List.isEmpty_iff.1 hfilters)
    obtain ⟨list, hlist, hattr⟩ := hloop sampleReferenceHead _ ⟨"xs", "x", none, none⟩ rfl rfl hdone
    rw [← htext, hboth.2] at hattr
    exact ⟨_, list, hdone, hlist, hattr⟩

def boundInput (source : String) : Head where
  tag := "input"
  attrs := [("v-model", source)]
  directives := [⟨"model", "v-model", source, none, []⟩]

/-- Sources that count as assignable are bound with a filter, as a number and behind a sign. -/
theorem unassignable_bound :
    (∃ p, Expr.parse "a | f" = .ok p ∧ p.filters.map (·.name) = ["f"]) ∧
      (transformModel (boundInput "a | f")).error?.isNone ∧
      (transformModel (boundInput "a | f")).value.attr? "value" = some "\x7b= a | f =\x7d" ∧
      (transformModel (boundInput "'abc'.length")).error?.isNone ∧
      (transformModel (boundInput "'abc'.length")).value.attr? "value" = some "\x7b= 3 =\x7d" ∧
      (transformModel (boundInput "(-a).b")).error?.isNone ∧
      (transformModel (boundInput "(-a).b")).value.attr? "value" = some "\x7b= -a.b =\x7d" := by
  have hparse : (Expr.parse "a | f").toOption.any (·.filters.map (·.name) == ["f"]) = true := by
    decide +kernel
  obtain ⟨p, hp, hfilters⟩ := (Option.any_eq_true _ _).1 hparse
  rw [toOption_eq_some] at hp
  exact ⟨⟨p, hp, eq_of_beq hfilters⟩, by decide +kernel, by decide +kernel, by decide +kernel,
    by decide +kernel, by decide +kernel, by decide +kernel⟩

end VueToSan.Transform
