import VueToSan.Proofs.CodeRoundTrip
import VueToSan.Proofs.Rows

/-!
# Compiled code can be parsed

The code of an expression leaves out parentheses that would be needed to read the same expression
back, but what is written is a row of operands all the same, so that it can be parsed, and no other
operators are found in it than those that were written. There is one exception: the point of a member
access behind a whole number is taken into the number, and what follows is not expected there.
-/

namespace VueToSan.Expr

open VueToSan.Text

/-! ## Points behind whole numbers -/

/-- Whether the code of an expression, put in parentheses if it needs them, ends with a whole
number. -/
def Node.endsWhole : Node → Bool
  | .literal _ value => value.constant.isWhole
  | .field l o name => (Node.field l o name).constant?.any (·.isWhole)
  | .unary l op a => ((Node.unary l op a).constant?.map (·.isWhole)).getD a.endsWhole
  | .binary l op a b =>
    op.isEquality && ((Node.binary l op a b).constant?.map (·.isWhole)).getD b.endsWhole
  | _ => false

mutual

/-- Whether no member is accessed right behind a whole number. Branches that are never selected are
not written. -/
def Node.isDotSafe : Node → Bool
  | .identifier _ => true
  | .literal _ _ => true
  | .field _ object _ => !object.endsWhole && object.isDotSafe
  | .index _ object index => object.isDotSafe && index.isDotSafe
  | .unary _ _ argument => argument.isDotSafe
  | .binary _ _ left right => left.isDotSafe && right.isDotSafe
  | .logical _ _ left right => left.isDotSafe && right.isDotSafe
  | .conditional _ test consequent alternate =>
    match test.constant? with
    | some value => if value.isTruthy then consequent.isDotSafe else alternate.isDotSafe
    | none => test.isDotSafe && consequent.isDotSafe && alternate.isDotSafe
  | .call _ callee arguments => callee.isDotSafe && areDotSafe arguments
  | .template _ parts => areDotSafe parts
  | .array _ elements => areDotSafe elements
  | .object _ properties => propertiesDotSafe properties

def areDotSafe : List Node → Bool
  | [] => true
  | e :: es => e.isDotSafe && areDotSafe es

def propertiesDotSafe : List Property → Bool
  | [] => true
  | p :: ps => p.isDotSafe && propertiesDotSafe ps

def Property.isDotSafe : Property → Bool
  | .shorthand _ => true
  | .keyed _ _ value => value.isDotSafe
  | .computed _ key value => key.isDotSafe && value.isDotSafe

end

structure Piped.IsDotSafe (e : Piped) : Prop where
  expression : e.expression.isDotSafe = true
  arguments : ∀ f ∈ e.filters, areDotSafe f.arguments = true
  filters : ∀ f ∈ e.filters, f.isUnmarked

instance (e : Piped) : Decidable e.IsDotSafe :=
  decidable_of_iff (e.expression.isDotSafe = true ∧
    (∀ f ∈ e.filters, areDotSafe f.arguments = true) ∧ ∀ f ∈ e.filters, f.isUnmarked)
    ⟨fun h => ⟨h.1, h.2.1, h.2.2⟩, fun h => ⟨h.expression, h.arguments, h.filters⟩⟩

/-! ## Code of nodes -/

/-- The code of an expression is read as some expression, and, wrapped, as a row. -/
structure CodeParses (e : Node) (text : String) : Prop where
  admitted : ReadsAdmitted text
  row : RowReads (!e.endsWhole) (wrap text e)

namespace CodeParses

theorem whole {e : Node} {text : String} (h : CodeParses e text) :
    ∃ x, ReadsAs false text (.placed .free x) := by
  obtain ⟨x, -, hx⟩ := h.admitted
  exact ⟨x, hx⟩

theorem of_wrapped {e : Node} {text : String} (hwrap : wrap text e = "(" ++ text ++ ")")
    (h : ReadsAdmitted text) : CodeParses e text := by
  refine ⟨h, ?_⟩
  obtain ⟨x, hadmitted, hx⟩ := h
  rw [hwrap]
  exact .of_object hadmitted (.parens .object hx) _

theorem of_row {e : Node} {text : String} (hwrap : wrap text e = text)
    (h : RowReads (!e.endsWhole) text) : CodeParses e text :=
  ⟨h.whole, by rwa [hwrap]⟩

end CodeParses

variable {l : Location} {code : Code}

theorem codeParses_field {object : Node} {name : Name} {c : Code}
    (h : generate (.field l object name) = .ok code)
    (hcode : code = fieldCode c (wrap c.text object) name.text)
    (hobject : CodeParses object c.text) (hdot : object.endsWhole = false)
    (hname : isWord name.text = true) : CodeParses (.field l object name) code.text := by
  apply CodeParses.of_row rfl
  rcases fieldCode_cases c (wrap c.text object) name.text with ⟨x, hfold⟩ | ⟨hnone, htext⟩
  · rw [hcode, hfold] at h ⊢
    rw [Node.endsWhole, constant?_of_generate h]
    exact (Constant.number x).rowReads
  · rw [hcode] at h ⊢
    rw [htext]
    have hrow := hobject.row
    rw [hdot] at hrow
    exact hrow.field hname

theorem rowReads_joinOperator {before dot : Bool} {left right : String} {op : Infix}
    (hop : op.IsAdmitted) (hleft : RowReads before left) (hright : RowReads dot right) :
    RowReads dot (joinOperator left op.text right) := by
  rcases joinOperator_cases left op.text right with htext | htext
  · rw [htext]
    exact hleft.joined hright hop
  · rw [htext]
    exact hleft.joined hright.space hop

theorem codeParses_unary {op : UnaryOp} {a : Node} {c : Code}
    (h : generate (.unary l op a) = .ok code)
    (hcode : (∃ f, code = .ofConstant f) ∨
      code = .plain (joinOperator "" op.text (wrap c.text a)))
    (hop : op ∈ admittedUnary) (ha : CodeParses a c.text) :
    CodeParses (.unary l op a) code.text := by
  apply CodeParses.of_row rfl
  rw [Node.endsWhole, constant?_of_generate h]
  rcases hcode with ⟨f, rfl⟩ | rfl
  · exact f.rowReads
  · rcases joinOperator_cases "" op.text (wrap c.text a) with htext | htext
    · rw [Code.plain, htext, String.empty_append]
      exact ha.row.sign hop
    · rw [Code.plain, htext, String.empty_append]
      exact ha.row.space.sign hop

theorem codeParses_binary {op : BinaryOp} {a b : Node} {c d : Code}
    (h : generate (.binary l op a b) = .ok code)
    (hcode : (∃ f, code = .ofConstant f) ∨
      code = .plain (joinOperator (wrap c.text a) op.text (wrap d.text b)))
    (hop : op ∈ admittedBinary) (ha : CodeParses a c.text) (hb : CodeParses b d.text) :
    CodeParses (.binary l op a b) code.text := by
  have hrow : RowReads (!(code.constant.map (·.isWhole)).getD b.endsWhole) code.text := by
    rcases hcode with ⟨f, rfl⟩ | rfl
    · exact f.rowReads
    · have hadmitted : (Infix.binary op).IsAdmitted := hop
      have hjoined := rowReads_joinOperator hadmitted ha.row hb.row
      rw [Infix.text] at hjoined
      rwa [Code.plain, Option.map_none, Option.getD_none]
  by_cases hequality : op.isEquality = true
  · apply CodeParses.of_row (by rw [wrap, if_pos hequality])
    rwa [Node.endsWhole, hequality, Bool.true_and, constant?_of_generate h]
  · exact CodeParses.of_wrapped (by rw [wrap, if_neg hequality]) hrow.whole

theorem codeParses_logical {op : LogicalOp} {a b : Node} {c d : Code}
    (hcode : (∃ f, code = .ofConstant f) ∨
      code = .plain (wrap c.text a ++ op.text ++ wrap d.text b))
    (hop : op ∈ admittedLogical) (ha : CodeParses a c.text) (hb : CodeParses b d.text) :
    CodeParses (.logical l op a b) code.text := by
  apply CodeParses.of_wrapped rfl
  rcases hcode with ⟨f, rfl⟩ | rfl
  · exact f.rowReads.whole
  · have hadmitted : (Infix.logical op).IsAdmitted := hop
    exact (ha.row.joined hb.row hadmitted).whole

theorem codeParses_conditional {t x y : Node} {c d e : Code}
    (hcode : code = .plain (wrap c.text t ++ "?" ++ wrap d.text x ++ ":" ++ wrap e.text y))
    (ht : CodeParses t c.text) (hx : CodeParses x d.text) (hy : CodeParses y e.text) :
    CodeParses (.conditional l t x y) code.text := by
  apply CodeParses.of_wrapped rfl
  obtain ⟨t', hadmit, ht'⟩ := ht.row.operand (.inl rfl)
  obtain ⟨x', hadmit', hx'⟩ := hx.row.operand (.inr rfl)
  obtain ⟨y', hadmit'', hy'⟩ := hy.row.operand (.inr rfl)
  rw [hcode]
  exact ⟨_, by rw [Node.isAdmitted, hadmit, hadmit', hadmit'']; rfl,
    ((ht'.conditional hx' hy' default).operand (p := .free) trivial).2⟩

theorem rowReads_sum {texts : List String} (h : ∀ text ∈ texts, ∃ dot, RowReads dot text)
    {first : String} {dot : Bool} (hfirst : RowReads dot first) :
    RowReads false (joinWith "+" (first :: texts)) := by
  induction texts generalizing first dot with
  | nil => exact hfirst.weaken
  | cons text texts ih =>
    rw [List.forall_mem_cons] at h
    obtain ⟨⟨dot', htext⟩, hrest⟩ := h
    have hadd : (Infix.binary .add).IsAdmitted := by
      rw [Infix.IsAdmitted]
      decide
    have hsum := ih hrest (hfirst.joined htext hadd)
    rwa [show (Infix.binary .add).text = "+" from rfl, joinWith_cons_append] at hsum

theorem generateParts_ne_nil {es : List Node} {texts : List String}
    (h : generateParts es = .ok texts) (hne : es ≠ []) : texts ≠ [] := by
  obtain ⟨e, es, rfl⟩ := List.exists_cons_of_ne_nil hne
  simp only [generateParts, bind_eq_ok, pure_eq_ok, Except.ok.injEq] at h
  obtain ⟨code, -, rest, -, rfl⟩ := h
  simp

theorem codeParses_template {parts : List Node} {texts : List String}
    (h : ∀ text ∈ texts, ∃ dot, RowReads dot text) (hne : texts ≠ []) :
    CodeParses (.template l parts) ("(" ++ joinWith "+" texts ++ ")") := by
  apply CodeParses.of_row rfl
  obtain ⟨first, texts, rfl⟩ := List.exists_cons_of_ne_nil hne
  rw [List.forall_mem_cons] at h
  obtain ⟨⟨dot, hfirst⟩, hrest⟩ := h
  obtain ⟨x, hadmitted, hx⟩ := (rowReads_sum hrest hfirst).whole
  exact .of_object hadmitted (.parens .object hx) _

/-! ## All expressions -/

theorem exists_items {texts : List String} (h : ∀ text ∈ texts, ReadsAdmitted text) :
    ∃ es, areAdmitted es = true ∧ ReadsAs false (joinWith ", " texts) (.items es) := by
  have hall : ∃ es, areAdmitted es = true ∧
      List.Forall₂ (fun e text => ReadsAs false text (.placed .free e)) es texts := by
    induction texts with
    | nil => exact ⟨[], rfl, .nil⟩
    | cons text texts ih =>
      rw [List.forall_mem_cons] at h
      obtain ⟨⟨x, hadmitted, hx⟩, hrest⟩ := h
      obtain ⟨es, hadmit, hes⟩ := ih hrest
      exact ⟨x :: es, by rw [areAdmitted, hadmitted, hadmit]; rfl, .cons hx hes⟩
  obtain ⟨es, hadmitted, hes⟩ := hall
  exact ⟨es, hadmitted, readsAs_items hes⟩

mutual

theorem generate_parses : ∀ (e : Node) {code : Code}, generate e = .ok code →
    e.isDotSafe = true → e.isSpelled = true → CodeParses e code.text
  | .identifier name, code, h, _, hs => by
    obtain rfl := Except.ok.inj h
    exact .of_row rfl (.of_bare rfl (bare_name hs _) rfl)
  | .literal l value, code, h, _, _ => by
    obtain rfl := Except.ok.inj h
    exact .of_row rfl value.constant.rowReads
  | .field l object name, code, h, hd, hs => by
    rw [Node.isDotSafe, Bool.and_eq_true, Bool.not_eq_true'] at hd
    rw [Node.isSpelled, Bool.and_eq_true] at hs
    obtain ⟨c, hc, hcode⟩ := generate_field_ok h
    exact codeParses_field h hcode (generate_parses object hc hd.2 hs.1) hd.1 hs.2
  | .index l object index, code, h, hd, hs => by
    rw [Node.isDotSafe, Bool.and_eq_true] at hd
    rw [Node.isSpelled, Bool.and_eq_true] at hs
    obtain ⟨c, i, hc, hi, rfl⟩ := generate_index_ok h
    have hinner := (generate_parses index hi hd.2 hs.2).admitted
    exact .of_row rfl ((generate_parses object hc hd.1 hs.1).row.index hinner)
  | .unary l op a, code, h, hd, hs => by
    rw [Node.isDotSafe] at hd
    rw [Node.isSpelled] at hs
    obtain ⟨hop, c, hc, hcode⟩ := generate_unary_ok h
    refine codeParses_unary h ?_ hop (generate_parses a hc hd hs)
    exact hcode.imp (fun ⟨_, f, _, _, hf⟩ => ⟨f, hf⟩) (·.2)
  | .binary l op a b, code, h, hd, hs => by
    rw [Node.isDotSafe, Bool.and_eq_true] at hd
    rw [Node.isSpelled, Bool.and_eq_true] at hs
    obtain ⟨hop, c, d, hc, hd', hcode⟩ := generate_binary_ok h
    refine codeParses_binary h ?_ hop (generate_parses a hc hd.1 hs.1)
      (generate_parses b hd' hd.2 hs.2)
    exact hcode.imp (fun ⟨_, _, f, _, _, _, hf⟩ => ⟨f, hf⟩) (·.2)
  | .logical l op a b, code, h, hd, hs => by
    rw [Node.isDotSafe, Bool.and_eq_true] at hd
    rw [Node.isSpelled, Bool.and_eq_true] at hs
    obtain ⟨hop, c, d, hc, hd', hcode⟩ := generate_logical_ok h
    refine codeParses_logical ?_ hop (generate_parses a hc hd.1 hs.1)
      (generate_parses b hd' hd.2 hs.2)
    exact hcode.imp (fun ⟨_, _, f, _, _, _, hf⟩ => ⟨f, hf⟩) (·.2)
  | .conditional l t x y, code, h, hd, hs => by
    rw [Node.isSpelled, Bool.and_eq_true, Bool.and_eq_true] at hs
    obtain ⟨c, d, e, hc, hd', he, hcode⟩ := generate_conditional_ok h
    rw [Node.isDotSafe, constant?_of_generate hc] at hd
    -- A test that is constant leaves one branch, and nothing is asked of the other one.
    rcases hcode with ⟨v, hv, rfl⟩ | ⟨hnone, hcode⟩
    · rw [hv] at hd
      dsimp only at hd
      apply CodeParses.of_wrapped rfl
      split_ifs at hd ⊢
      · exact (generate_parses x hd' hd hs.1.2).admitted
      · exact (generate_parses y he hd hs.2).admitted
    · rw [hnone, Bool.and_eq_true, Bool.and_eq_true] at hd
      exact codeParses_conditional hcode (generate_parses t hc hd.1.1 hs.1.1)
        (generate_parses x hd' hd.1.2 hs.1.2) (generate_parses y he hd.2 hs.2)
  | .call l f args, code, h, hd, hs => by
    rw [Node.isDotSafe, Bool.and_eq_true] at hd
    rw [Node.isSpelled, Bool.and_eq_true] at hs
    obtain ⟨c, texts, hc, ht, rfl⟩ := generate_call_ok h
    obtain ⟨es, hadmitted, hes⟩ := exists_items (generateList_parses args ht hd.2 hs.2)
    exact .of_row rfl ((generate_parses f hc hd.1 hs.1).row.call hadmitted hes)
  | .template l parts, code, h, hd, hs => by
    rw [Node.isDotSafe] at hd
    rw [Node.isSpelled] at hs
    obtain ⟨texts, ht, ⟨rfl, rfl⟩ | ⟨hne, rfl⟩⟩ := generate_template_ok h
    · exact .of_row rfl (Constant.string "").rowReads
    · exact codeParses_template (generateParts_parses parts ht hd hs) (generateParts_ne_nil ht hne)
  | .array l es, code, h, hd, hs => by
    rw [Node.isDotSafe] at hd
    rw [Node.isSpelled] at hs
    obtain ⟨texts, ht, rfl⟩ := generate_array_ok h
    obtain ⟨xs, hadmitted, hxs⟩ := exists_items (generateList_parses es ht hd hs)
    exact .of_row rfl (.of_bare (e := .array default xs) hadmitted (hxs.array _ default) rfl)
  | .object l ps, code, h, hd, hs => by
    rw [Node.isDotSafe] at hd
    rw [Node.isSpelled] at hs
    obtain ⟨codes, hc, rfl⟩ := generate_object_ok h
    obtain ⟨qs, hadmitted, hqs⟩ := generateProperties_parses ps hc hd hs
    exact .of_row rfl
      (.of_object (isAdmitted_objectNode hadmitted) (operand_object hqs .object) _)

theorem generateList_parses : ∀ (es : List Node) {texts : List String},
    generateList es = .ok texts → areDotSafe es = true → areSpelled es = true →
    ∀ text ∈ texts, ReadsAdmitted text
  | [], texts, h, _, _ => by
    obtain rfl := Except.ok.inj h
    simp
  | e :: es, texts, h, hd, hs => by
    rw [areDotSafe, Bool.and_eq_true] at hd
    rw [areSpelled, Bool.and_eq_true] at hs
    simp only [generateList, bind_eq_ok, pure_eq_ok, Except.ok.injEq] at h
    obtain ⟨code, hcode, rest, hrest, rfl⟩ := h
    rw [List.forall_mem_cons]
    exact ⟨(generate_parses e hcode hd.1 hs.1).admitted, generateList_parses es hrest hd.2 hs.2⟩

theorem generateParts_parses : ∀ (es : List Node) {texts : List String},
    generateParts es = .ok texts → areDotSafe es = true → areSpelled es = true →
    ∀ text ∈ texts, ∃ dot, RowReads dot text
  | [], texts, h, _, _ => by
    obtain rfl := Except.ok.inj h
    simp
  | e :: es, texts, h, hd, hs => by
    rw [areDotSafe, Bool.and_eq_true] at hd
    rw [areSpelled, Bool.and_eq_true] at hs
    simp only [generateParts, bind_eq_ok, pure_eq_ok, Except.ok.injEq] at h
    obtain ⟨code, hcode, rest, hrest, rfl⟩ := h
    rw [List.forall_mem_cons]
    exact ⟨⟨_, (generate_parses e hcode hd.1 hs.1).row⟩, generateParts_parses es hrest hd.2 hs.2⟩

theorem generateProperties_parses : ∀ (ps : List Property) {codes : List PropertyCode},
    generateProperties ps = .ok codes → propertiesDotSafe ps = true →
    propertiesSpelled ps = true →
    ∃ qs, propertiesAdmitted qs = true ∧ List.Forall₂ PropertyReads qs codes
  | [], codes, h, _, _ => by
    obtain rfl := Except.ok.inj h
    exact ⟨[], rfl, .nil⟩
  | p :: ps, codes, h, hd, hs => by
    rw [propertiesDotSafe, Bool.and_eq_true] at hd
    rw [propertiesSpelled, Bool.and_eq_true] at hs
    simp only [generateProperties, bind_eq_ok, pure_eq_ok, Except.ok.injEq] at h
    obtain ⟨code, hcode, rest, hrest, rfl⟩ := h
    obtain ⟨q, hadmitted, hq⟩ := generateProperty_parses p hcode hd.1 hs.1
    obtain ⟨qs, hadmit, hqs⟩ := generateProperties_parses ps hrest hd.2 hs.2
    exact ⟨q :: qs, by rw [propertiesAdmitted, hadmitted, hadmit]; rfl, .cons hq hqs⟩

theorem generateProperty_parses : ∀ (p : Property) {code : PropertyCode},
    generateProperty p = .ok code → p.isDotSafe = true → p.isSpelled = true →
    ∃ q, q.isAdmitted = true ∧ PropertyReads q code
  | .shorthand name, code, h, _, hs => by
    obtain rfl := Except.ok.inj h
    exact ⟨_, rfl, propertyReads_shorthand hs⟩
  | .keyed l key value, code, h, hd, hs => by
    rw [Property.isDotSafe] at hd
    rw [Property.isSpelled, Bool.and_eq_true] at hs
    simp only [generateProperty, bind_eq_ok, pure_eq_ok, Except.ok.injEq] at h
    obtain ⟨c, hc, rfl⟩ := h
    obtain ⟨x, hadmitted, hx⟩ := (generate_parses value hc hd hs.2).admitted
    exact ⟨.keyed default key.normal x, hadmitted, propertyReads_value hs.1 hx⟩
  | .computed l key value, code, h, hd, hs => by
    rw [Property.isDotSafe, Bool.and_eq_true] at hd
    rw [Property.isSpelled, Bool.and_eq_true] at hs
    simp only [generateProperty, bind_eq_ok, pure_eq_ok, Except.ok.injEq] at h
    obtain ⟨c, hc, k, hk, rfl⟩ := h
    obtain ⟨x, hadmitted, hx⟩ := (generate_parses value hc hd.2 hs.2).admitted
    obtain ⟨y, hadmit, hy⟩ := (generate_parses key hk hd.1 hs.1).admitted
    exact ⟨_, by rw [Property.isAdmitted, hadmit, hadmitted]; rfl, propertyReads_pair hy hx⟩

end

/-! ## Whole sources -/

theorem applyFilters_admitted {fs : List Filter} {code result : String}
    (h : applyFilters code fs = .ok result) (hspelled : ∀ f ∈ fs, f.isSpelled = true)
    (hsafe : ∀ f ∈ fs, areDotSafe f.arguments = true) (hmarks : ∀ f ∈ fs, f.isUnmarked) :
    ∃ text gs, result = code ++ text ∧ FiltersRead gs text ∧ gs.all (·.isAdmitted) = true := by
  induction fs generalizing code with
  | nil =>
    obtain rfl := Except.ok.inj h
    exact ⟨"", [], by rw [String.append_empty], filtersRead_nil, rfl⟩
  | cons f fs ih =>
    rw [List.forall_mem_cons] at hspelled hsafe hmarks
    obtain ⟨args, hargs, hrest⟩ := applyFilters_cons h hmarks.1
    obtain ⟨text, gs, rfl, hread, hadmitted⟩ := ih hrest hspelled.2 hsafe.2 hmarks.2
    have hf := hspelled.1
    rw [Filter.isSpelled, Bool.and_eq_true] at hf
    split_ifs with hempty
    · rw [String.append_empty]
      exact ⟨_, ⟨f.name, [], default⟩ :: gs, String.append_assoc .., hread.bare hf.1 rfl, hadmitted⟩
    · obtain ⟨es, hadmit, hes⟩ :=
        exists_items (generateList_parses f.arguments hargs hsafe.1 hf.2)
      refine ⟨_, ⟨f.name, es, default⟩ :: gs, String.append_assoc ..,
        hread.call (f := ⟨f.name, es, default⟩) hf.1 hes, ?_⟩
      rw [List.all_cons, Filter.isAdmitted, hadmit, hadmitted]
      rfl

theorem applyFilters_parses {fs : List Filter} {code result : String}
    (h : applyFilters code fs = .ok result) (hspelled : ∀ f ∈ fs, f.isSpelled = true)
    (hsafe : ∀ f ∈ fs, areDotSafe f.arguments = true) (hmarks : ∀ f ∈ fs, f.isUnmarked) :
    ∃ text gs, result = code ++ text ∧ FiltersRead gs text := by
  obtain ⟨text, gs, htext, hread, -⟩ := applyFilters_admitted h hspelled hsafe hmarks
  exact ⟨text, gs, htext, hread⟩

theorem exists_parsed_unfiltered {source : String} {e : Piped} {compiled : Compiled}
    (hparse : parse source = .ok e) (hcompile : compile source = .ok compiled)
    (hsafe : e.expression.isDotSafe = true) (hfilters : e.filters = []) :
    ∃ p, parse compiled.text = .ok p ∧ p.filters = [] := by
  obtain ⟨base, hbase, htext⟩ := compile_ok_unfiltered hparse hcompile hfilters
  obtain ⟨x, hx⟩ := (generate_parses e.expression hbase hsafe (parse_isSpelled hparse).1).whole
  rw [htext] at hx
  obtain ⟨p, hp, hfree, -⟩ := parse_unfiltered hx
  exact ⟨p, hp, hfree⟩

theorem exists_parsed_safe {source : String} {e : Piped} {compiled : Compiled}
    (hparse : parse source = .ok e) (hcompile : compile source = .ok compiled)
    (hsafe : e.IsDotSafe) : ∃ p, parse compiled.text = .ok p := by
  obtain ⟨hspelled, hfilters⟩ := parse_isSpelled hparse
  obtain ⟨hexpression, harguments, hmarks⟩ := hsafe
  obtain ⟨base, hbase, happly⟩ := compile_ok hparse hcompile
  obtain ⟨x, hx⟩ := (generate_parses e.expression hbase hexpression hspelled).whole
  obtain ⟨text, gs, htext, hread⟩ := applyFilters_parses happly hfilters harguments hmarks
  obtain ⟨p, hp, -⟩ := parse_of_reads hx hread
  exact ⟨p, htext ▸ hp⟩

/-- The code of a source that is not blank can be parsed, unless a point stands behind a whole
number. -/
theorem parse_compile_succeeds {source : String} {compiled : Compiled}
    (hblank : allBlank source = false) (h : compile source = .ok compiled)
    (hsafe : ∀ e, parse source = .ok e → e.IsDotSafe) : ∃ p, parse compiled.text = .ok p := by
  obtain ⟨e, he⟩ := exists_parsed hblank h
  exact exists_parsed_safe he h (hsafe e he)

def sampleRow : String := "-(a == 1) + (b != 1.5).c[1 == d] | f(!(x === 2))"

def sampleRowCode : String := "-a==1+b!=1.5.c[1==d] | f(!x===2)"

theorem sampleRow_parsed :
    ∃ compiled, compile sampleRow = .ok compiled ∧ compiled.text = sampleRowCode ∧
      ∃ p, parse compiled.text = .ok p := by
  have hsafe : (parse sampleRow).toOption.all (fun e => decide e.IsDotSafe) = true := by
    decide +kernel
  have hcompile : (compile sampleRow).toOption.map (·.text) = some sampleRowCode := by
    decide +kernel
  obtain ⟨compiled, hcompiled, htext⟩ := Option.map_eq_some_iff.1 hcompile
  rw [toOption_eq_some] at hcompiled
  refine ⟨compiled, hcompiled, htext, parse_compile_succeeds (by decide) hcompiled ?_⟩
  intro e he
  rw [he, toOption_ok] at hsafe
  exact of_decide_eq_true hsafe

/-- The point behind a whole number is taken for a part of it. -/
theorem point_behind_whole_number :
    ∃ compiled, compile "(1).toFixed(2)" = .ok compiled ∧ compiled.text = "1.toFixed(2)" ∧
      ∀ p, parse compiled.text ≠ .ok p := by
  have hcompile : (compile "(1).toFixed(2)").toOption.map (·.text) = some "1.toFixed(2)" := by
    decide +kernel
  have hparse : (parse "1.toFixed(2)").toOption.isNone = true := by
    decide +kernel
  obtain ⟨compiled, hcompiled, htext⟩ := Option.map_eq_some_iff.1 hcompile
  rw [toOption_eq_some] at hcompiled
  refine ⟨compiled, hcompiled, htext, fun p hp => ?_⟩
  rw [← htext, hp] at hparse
  cases hparse

end VueToSan.Expr
