import VueToSan.Proofs.Phrases
import VueToSan.Proofs.PropertyRuns

/-!
# Generated code is read as the normal form

The code of a legible expression is read as its normal form: as a whole, and, wrapped, at every
place that the expression suits. There is one statement for each kind of node, and the proof for all
expressions follows the generator.
-/

namespace VueToSan.Expr

open VueToSan.Text

/-- Whether an equality may stand at a place without parentheses. -/
def Place.TakesEquality (p : Place) : Prop :=
  ∀ op : BinaryOp, op.isEquality = true → p.admits (.joined (.binary op))

structure Node.Suits (e : Node) (p : Place) : Prop where
  object : p = .object → e.isAccessible = true
  equality : e.isEquality = true → p.TakesEquality

/-- The code of an expression is read as its normal form. -/
structure CodeReads (e : Node) (text : String) : Prop where
  whole : ReadsAs false text (.placed .free e.normal)
  placed : ∀ p, e.Suits p → Operand p e.normal (wrap text e)

namespace Node

theorem suits_free (e : Node) : e.Suits .free := by
  refine ⟨fun h => ?_, fun _ op _ => trivial⟩
  cases h

theorem suits_object {e : Node} (h : e.isAccessible = true) : e.Suits .object := by
  refine ⟨fun _ => h, fun heq => ?_⟩
  cases e <;> simp_all [isAccessible, isEquality]

theorem suits_of_not_isEquality {e : Node} {p : Place} (hp : p ≠ .object)
    (h : e.isEquality = false) : e.Suits p := by
  refine ⟨fun hobject => absurd hobject hp, fun heq => ?_⟩
  rw [h] at heq
  cases heq

theorem suits_of_takesEquality {e : Node} {p : Place} (hp : p ≠ .object) (h : p.TakesEquality) :
    e.Suits p :=
  ⟨fun hobject => absurd hobject hp, fun _ => h⟩

end Node

theorem power_of_isEquality {op : BinaryOp} (h : op.isEquality = true) :
    (Infix.binary op).left = 11 ∧ (Infix.binary op).right = 12 := by
  revert h
  cases op <;> decide

theorem takesEquality_left {op : BinaryOp} (h : op.isEquality = true) :
    (Place.left (.binary op)).TakesEquality := by
  intro inner hinner
  rw [Place.admits, (power_of_isEquality h).1, (power_of_isEquality hinner).2]
  decide

theorem power_logical (op : LogicalOp) :
    (Infix.logical op).left ≤ 3 ∧ (Infix.logical op).right ≤ 4 := by
  cases op <;> decide

theorem takesEquality_logical (op : LogicalOp) :
    (Place.left (.logical op)).TakesEquality ∧ (Place.right (.logical op)).TakesEquality := by
  obtain ⟨hleft, hright⟩ := power_logical op
  constructor
  · intro inner hinner
    rw [Place.admits, (power_of_isEquality hinner).2]
    omega
  · intro inner hinner
    rw [Place.admits, (power_of_isEquality hinner).1]
    omega

theorem takesEquality_test : Place.test.TakesEquality := fun _ _ => trivial

theorem Place.TakesEquality.ne_object {p : Place} (h : p.TakesEquality) : p ≠ .object := by
  rintro rfl
  exact h .eq rfl

namespace CodeReads

theorem of_wrapped {e : Node} {text : String} (hwrap : wrap text e = "(" ++ text ++ ")")
    (h : ReadsAs false text (.placed .free e.normal)) : CodeReads e text := by
  refine ⟨h, fun p _ => ?_⟩
  rw [hwrap]
  exact .parens p h

theorem of_bare {e : Node} {text : String} (hwrap : wrap text e = text)
    (h : ∀ p, e.Suits p → Operand p e.normal text) : CodeReads e text := by
  refine ⟨(h .free e.suits_free).2, fun p hp => ?_⟩
  rw [hwrap]
  exact h p hp

end CodeReads

/-! ## Folded expressions -/

theorem constant?_of_generate {e : Node} {code : Code} (h : generate e = .ok code) :
    e.constant? = code.constant := by
  rw [Node.constant?, h, toOption_ok, Option.bind_some]

theorem foldedOr_of_some {e other : Node} {code : Code} {v : Constant} (h : generate e = .ok code)
    (hv : code.constant = some v) : e.foldedOr other = v.node := by
  rw [Node.foldedOr, constant?_of_generate h, hv]

theorem foldedOr_of_none {e other : Node} {code : Code} (h : generate e = .ok code)
    (hv : code.constant = none) : e.foldedOr other = other := by
  rw [Node.foldedOr, constant?_of_generate h, hv]

/-! ## Members and calls -/

theorem fieldCode_cases (object : Code) (wrapped name : String) :
    (∃ x, fieldCode object wrapped name = .ofConstant (.number x)) ∨
      (fieldCode object wrapped name).constant = none ∧
        (fieldCode object wrapped name).text = wrapped ++ "." ++ name := by
  unfold fieldCode
  split
  · rename_i hlength
    rw [Bool.and_eq_true, beq_iff_eq] at hlength
    split
    · exact .inl ⟨_, rfl⟩
    · refine .inr ⟨rfl, ?_⟩
      rw [hlength.1, String.append_assoc]
      rfl
  · exact .inr ⟨rfl, rfl⟩

variable {l : Location} {code : Code}

theorem codeReads_field {object : Node} {name : Name} {c : Code}
    (h : generate (.field l object name) = .ok code)
    (hcode : code = fieldCode c (wrap c.text object) name.text)
    (hobject : CodeReads object c.text) (hlegible : object.isAccessible = true)
    (hname : isWord name.text = true) : CodeReads (.field l object name) code.text := by
  refine CodeReads.of_bare rfl fun p hp => ?_
  rcases fieldCode_cases c (wrap c.text object) name.text with ⟨x, hfold⟩ | ⟨hnone, htext⟩
  · rw [hcode, hfold] at h ⊢
    rw [Node.normal, foldedOr_of_some h rfl]
    -- A folded length is a number, and nothing may be accessed behind it.
    refine (Constant.number x).operand fun hplace => ?_
    have haccess := hp.object hplace
    simp [Node.isAccessible, constant?_of_generate h, Code.ofConstant] at haccess
  · rw [hcode] at h ⊢
    rw [Node.normal, foldedOr_of_none h hnone, htext]
    have hobject' := hobject.placed .object (Node.suits_object hlegible)
    exact (hobject'.field hname _ default).operand (admits_primary p)

theorem codeReads_index {object index : Node} {c i : Code} (hobject : CodeReads object c.text)
    (hindex : CodeReads index i.text) (hlegible : object.isAccessible = true) :
    CodeReads (.index l object index) (wrap c.text object ++ "[" ++ i.text ++ "]") := by
  refine CodeReads.of_bare rfl fun p hp => ?_
  have hobject' := hobject.placed .object (Node.suits_object hlegible)
  exact (hobject'.index hindex.whole _ default).operand (admits_primary p)

theorem codeReads_call {f : Node} {args : List Node} {c : Code} {texts : List String}
    (hf : CodeReads f c.text)
    (hargs : List.Forall₂ (fun e text => ReadsAs false text (.placed .free e))
      (normalList args) texts)
    (hlegible : f.isAccessible = true) :
    CodeReads (.call l f args) (wrap c.text f ++ "(" ++ joinWith ", " texts ++ ")") := by
  refine CodeReads.of_bare rfl fun p hp => ?_
  have hf' := hf.placed .object (Node.suits_object hlegible)
  exact (hf'.call (readsAs_items hargs) _ default).operand (admits_primary p)

/-! ## Operators -/

theorem codeReads_literal (value : Literal) : CodeReads (.literal l value) value.constant.emit := by
  refine CodeReads.of_bare rfl fun p hp => ?_
  rw [Node.normal]
  refine value.constant.operand fun hplace x hx => ?_
  have haccess := hp.object hplace
  cases value <;> simp_all [Literal.constant, Node.isAccessible]

theorem codeReads_unary {op : UnaryOp} {a : Node} {c : Code}
    (h : generate (.unary l op a) = .ok code)
    (hcode : (∃ f, code = .ofConstant f) ∨
      code = .plain (joinOperator "" op.text (wrap c.text a)))
    (hop : op ∈ admittedUnary) (ha : CodeReads a c.text) (hlegible : a.isEquality = false) :
    CodeReads (.unary l op a) code.text := by
  refine CodeReads.of_bare rfl fun p hp => ?_
  have hplace : p ≠ .object := fun hplace => by
    have haccess := hp.object hplace
    cases haccess
  rcases hcode with ⟨f, rfl⟩ | rfl
  · rw [Node.normal, foldedOr_of_some h rfl]
    exact f.operand fun hobject => absurd hobject hplace
  · rw [Node.normal, foldedOr_of_none h rfl]
    have ha' := ha.placed .operand (Node.suits_of_not_isEquality (by simp) hlegible)
    rcases joinOperator_cases "" op.text (wrap c.text a) with htext | htext
    · rw [Code.plain, htext, String.empty_append]
      exact ha'.unary hop hplace default
    · rw [Code.plain, htext, String.empty_append]
      exact ha'.space.unary hop hplace default

theorem isNumeric_or_isEquality {op : BinaryOp} (h : op ∈ admittedBinary) :
    op.isNumeric = true ∨ op.isEquality = true := by
  revert h
  cases op <;> decide

theorem bare_binary {op : BinaryOp} {a b : Node} {c d : Code} (hop : op ∈ admittedBinary)
    (ha : CodeReads a c.text) (hb : CodeReads b d.text)
    (hleft : op.isNumeric = true → a.isEquality = false) (hright : b.isEquality = false) :
    Bare false (.binary default op a.normal b.normal)
      (joinOperator (wrap c.text a) op.text (wrap d.text b)) := by
  have hsuits : a.Suits (.left (.binary op)) := by
    rcases isNumeric_or_isEquality hop with hnumeric | hequality
    · exact Node.suits_of_not_isEquality (by simp) (hleft hnumeric)
    · exact Node.suits_of_takesEquality (by simp) (takesEquality_left hequality)
  have ha' := ha.placed _ hsuits
  have hb' := hb.placed (.right (.binary op)) (Node.suits_of_not_isEquality (by simp) hright)
  rcases joinOperator_cases (wrap c.text a) op.text (wrap d.text b) with htext | htext
  · rw [htext]
    exact ha'.joined hb' hop default
  · rw [htext]
    exact ha'.joined hb'.space hop default

theorem codeReads_binary {op : BinaryOp} {a b : Node} {c d : Code}
    (h : generate (.binary l op a b) = .ok code)
    (hcode : (∃ f, code = .ofConstant f) ∨
      code = .plain (joinOperator (wrap c.text a) op.text (wrap d.text b)))
    (hop : op ∈ admittedBinary) (ha : CodeReads a c.text) (hb : CodeReads b d.text)
    (hleft : op.isNumeric = true → a.isEquality = false) (hright : b.isEquality = false) :
    CodeReads (.binary l op a b) code.text := by
  by_cases hequality : op.isEquality = true
  · -- An equality stands bare, so only places that take one are left.
    refine CodeReads.of_bare (by rw [wrap, if_pos hequality]) fun p hp => ?_
    have htakes : p.TakesEquality := hp.equality hequality
    rcases hcode with ⟨f, rfl⟩ | rfl
    · rw [Node.normal, foldedOr_of_some h rfl]
      exact f.operand fun hobject => absurd hobject htakes.ne_object
    · rw [Node.normal, foldedOr_of_none h rfl]
      have hbare := bare_binary hop ha hb hleft hright
      rw [← beforeDot_eq_false htakes.ne_object] at hbare
      exact hbare.operand (htakes op hequality)
  · refine CodeReads.of_wrapped (by rw [wrap, if_neg hequality]) ?_
    rcases hcode with ⟨f, rfl⟩ | rfl
    · rw [Node.normal, foldedOr_of_some h rfl]
      exact f.readsAs
    · rw [Node.normal, foldedOr_of_none h rfl]
      exact ((bare_binary hop ha hb hleft hright).operand (p := .free) trivial).2

theorem codeReads_logical {op : LogicalOp} {a b : Node} {c d : Code}
    (h : generate (.logical l op a b) = .ok code)
    (hcode : (∃ f, code = .ofConstant f) ∨
      code = .plain (wrap c.text a ++ op.text ++ wrap d.text b))
    (hop : op ∈ admittedLogical) (ha : CodeReads a c.text) (hb : CodeReads b d.text) :
    CodeReads (.logical l op a b) code.text := by
  refine CodeReads.of_wrapped rfl ?_
  rcases hcode with ⟨f, rfl⟩ | rfl
  · rw [Node.normal, foldedOr_of_some h rfl]
    exact f.readsAs
  · rw [Node.normal, foldedOr_of_none h rfl]
    obtain ⟨hleft, hright⟩ := takesEquality_logical op
    have ha' := ha.placed _ (Node.suits_of_takesEquality (by simp) hleft)
    have hb' := hb.placed _ (Node.suits_of_takesEquality (by simp) hright)
    have hbare : Bare false (.logical default op a.normal b.normal) _ := ha'.joined hb' hop default
    exact (hbare.operand (p := .free) trivial).2

theorem codeReads_conditional {t x y : Node} {c d e : Code} (hc : generate t = .ok c)
    (hcode : (∃ v, c.constant = some v ∧ code = if v.isTruthy then d else e) ∨
      c.constant = none ∧
        code = .plain (wrap c.text t ++ "?" ++ wrap d.text x ++ ":" ++ wrap e.text y))
    (ht : CodeReads t c.text) (hx : CodeReads x d.text) (hy : CodeReads y e.text) :
    CodeReads (.conditional l t x y) code.text := by
  refine CodeReads.of_wrapped rfl ?_
  rw [Node.normal, constant?_of_generate hc]
  rcases hcode with ⟨v, hv, rfl⟩ | ⟨hnone, rfl⟩
  · rw [hv]
    dsimp only
    split_ifs
    · exact hx.whole
    · exact hy.whole
  · rw [hnone]
    have ht' := ht.placed .test (Node.suits_of_takesEquality (by simp) takesEquality_test)
    have hx' := hx.placed .free x.suits_free
    have hy' := hy.placed .free y.suits_free
    exact ((ht'.conditional hx' hy' default).operand (p := .free) trivial).2

/-! ## Template strings -/

theorem joinWith_cons_append (sep s t : String) (texts : List String) :
    joinWith sep ((s ++ sep ++ t) :: texts) = joinWith sep (s :: t :: texts) := by
  cases texts with
  | nil => rfl
  | cons u texts => simp only [joinWith, String.append_assoc]

def PartReads (e : Node) (text : String) : Prop := ∀ p, e.Suits p → Operand p e.normal text

-- The sum grows to the left, so the induction carries the sum of the parts before.
theorem readsAs_sum {es : List Node} {texts : List String} (h : List.Forall₂ PartReads es texts)
    (hes : ∀ e ∈ es, e.isEquality = false) {sum : Node} {text : String}
    (hfree : Operand .free sum text) (hleft : Operand (.left (.binary .add)) sum text) :
    ReadsAs false (joinWith "+" (text :: texts))
      (.placed .free ((normalList es).foldl (.binary default .add) sum)) := by
  induction h generalizing sum text with
  | nil => exact hfree.2
  | @cons e t es texts he hes' ih =>
    rw [List.forall_mem_cons] at hes
    have hright := he (.right (.binary .add)) (Node.suits_of_not_isEquality (by simp) hes.1)
    have hop : (Infix.binary .add).IsAdmitted := by
      rw [Infix.IsAdmitted]
      decide
    have hsum : Bare false (.binary default .add sum e.normal) (text ++ "+" ++ t) :=
      hleft.joined hright hop default
    have hplace : (Place.left (.binary .add)).admits (.joined (.binary .add)) := by
      rw [Place.admits]
      decide
    have hnext := ih hes.2 (hsum.operand (p := .free) trivial)
      (hsum.operand (p := .left (.binary .add)) hplace)
    rw [joinWith_cons_append] at hnext
    rw [normalList, List.foldl_cons]
    exact hnext

theorem codeReads_template {parts : List Node} {texts : List String}
    (h : List.Forall₂ PartReads parts texts) (hparts : ∀ e ∈ parts, e.isEquality = false)
    (hne : parts ≠ []) : CodeReads (.template l parts) ("(" ++ joinWith "+" texts ++ ")") := by
  refine CodeReads.of_bare rfl fun p _ => ?_
  cases h with
  | nil => contradiction
  | @cons e text es texts he hes =>
    rw [List.forall_mem_cons] at hparts
    have hleft := he (.left (.binary .add)) (Node.suits_of_not_isEquality (by simp) hparts.1)
    exact .parens p (readsAs_sum hes hparts.2 (he .free e.suits_free) hleft)

theorem codeReads_array {es : List Node} {texts : List String}
    (h : List.Forall₂ (fun e text => ReadsAs false text (.placed .free e)) (normalList es) texts) :
    CodeReads (.array l es) ("[" ++ joinWith ", " texts ++ "]") := by
  refine CodeReads.of_bare rfl fun p _ => ?_
  exact ((readsAs_items h).array _ default).operand (admits_primary p)

/-! ## Objects -/

structure PropertyReads (p : Property) (c : PropertyCode) : Prop where
  computed : c.computed = p.isComputed
  property : p.isComputed = false → ReadsAs false c.text (.property p)
  pair : p.isComputed = true → ReadsAs false c.text (.placed .free p.pairNode)

theorem plainReads {ps : List Property} {codes : List PropertyCode}
    (h : List.Forall₂ PropertyReads ps codes) (hplain : ∀ p ∈ ps, p.isComputed = false) :
    List.Forall₂ (fun p text => ReadsAs false text (.property p)) ps (codes.map (·.text)) := by
  induction h with
  | nil => exact .nil
  | cons hp hps ih =>
    rw [List.forall_mem_cons] at hplain
    exact .cons (hp.property hplain.1) (ih hplain.2)

theorem pairsRead {ps : List Property} {codes : List PropertyCode}
    (h : List.Forall₂ PropertyReads ps codes) (hcomputed : ∀ p ∈ ps, p.isComputed = true) :
    List.Forall₂ (fun e text => ReadsAs false text (.placed .free e)) (ps.map (·.pairNode))
      (codes.map (·.text)) := by
  induction h with
  | nil => exact .nil
  | cons hp hps ih =>
    rw [List.forall_mem_cons] at hcomputed
    exact .cons (hp.pair hcomputed.1) (ih hcomputed.2)

theorem readsAs_run {run : Bool × List Property} {argument : String}
    (h : RunWritten PropertyReads run argument) (hkind : ∀ p ∈ run.2, p.isComputed = run.1) :
    ReadsAs false argument (.placed .free (runNode run)) := by
  obtain ⟨codes, hcodes, rfl⟩ := h
  obtain ⟨computed, run⟩ := run
  cases computed with
  | false =>
    have hrun := readsAs_properties (plainReads hcodes hkind)
    exact ((hrun.object false default).operand (p := .free) trivial).2
  | true =>
    have hrun := readsAs_arguments (pairsRead hcodes hkind)
    have harray := ((hrun.array false default).operand (p := .free) trivial).2
    have hname := bare_name (n := ⟨default, "_ocp"⟩) rfl true
    have hcall := (hname.operand (p := .object) trivial).call harray.lastItem false default
    have htext : runArgument true (codes.map (·.text)) =
        "_ocp" ++ "(" ++ ("[" ++ joinWith "," (codes.map (·.text)) ++ "]") ++ ")" := by
      rw [← String.toList_inj]
      simp [runArgument, openRun, closeRun]
    rw [htext]
    exact (hcall.operand (p := .free) trivial).2

theorem operand_object {ps : List Property} {codes : List PropertyCode}
    (h : List.Forall₂ PropertyReads ps codes) (p : Place) :
    Operand p (objectNode ps) (objectCode codes).text := by
  have hflag : ∀ p c, PropertyReads p c → c.computed = p.isComputed := fun _ _ hp => hp.computed
  rw [objectNode]
  split_ifs with hany
  · obtain ⟨arguments, harguments, hcode⟩ := objectCode_runs hflag h hany
    have hruns : List.Forall₂ (fun run text => ReadsAs false text (.placed .free (runNode run)))
        (propertyRuns ps) arguments := by
      refine List.forall₂_iff_zip.2 ⟨harguments.length_eq, fun {run argument} hmem => ?_⟩
      have hkind := ((areRuns_propertyRuns ps).kind run (List.of_mem_zip hmem).1).2
      exact readsAs_run (List.forall₂_zip harguments hmem) hkind
    have hitems := readsAs_arguments (List.forall₂_map_left_iff.2 hruns)
    have hname := bare_name (n := ⟨default, "_ex"⟩) rfl true
    have hcall := (hname.operand (p := .object) trivial).call hitems p.beforeDot default
    rw [hcode]
    exact hcall.operand (admits_primary p)
  · rw [objectCode, any_computed hflag h, if_neg hany]
    have hplain := plainReads h (by simpa using hany)
    exact ((readsAs_properties hplain).object _ default).operand (admits_primary p)

theorem codeReads_object {ps : List Property} {codes : List PropertyCode}
    (h : List.Forall₂ PropertyReads (normalProperties ps) codes) :
    CodeReads (.object l ps) (objectCode codes).text := by
  refine CodeReads.of_bare rfl fun p _ => ?_
  rw [Node.normal]
  exact operand_object h p

theorem readsAs_named {n : Name} {v : Node} {text : String} (hn : isWord n.text = true)
    (h : ReadsAs false text (.placed .free v)) :
    ReadsAs false (n.text ++ ":" ++ text) (.property (.keyed default (.name n) v)) := by
  have hkey : (Key.name n).WrittenBy (wordToken n.text) := memberName?_wordToken n.text
  exact readsAs_keyed (lexes_word hn false) hkey h default

theorem propertyReads_shorthand {name : Name} (h : isName name.text = true) :
    PropertyReads (Property.shorthand name).normal ⟨name.text ++ ":" ++ name.text, false⟩ := by
  refine ⟨rfl, fun _ => ?_, fun hp => nomatch hp⟩
  exact readsAs_named (isWord_of_isName h) ((bare_name h false).operand (p := .free) trivial).2

theorem propertyReads_value {key : Key} {value : Node} {text : String}
    (hkey : key.isSpelled = true) (h : ReadsAs false text (.placed .free value)) :
    PropertyReads (.keyed default key.normal value) ⟨key.code ++ ":" ++ text, false⟩ := by
  refine ⟨rfl, fun _ => ?_, fun hp => nomatch hp⟩
  obtain ⟨t, hlex, ht⟩ := key.lexes_code hkey
  exact readsAs_keyed hlex ht h default

theorem propertyReads_pair {key value : Node} {text keyText : String}
    (hkey : ReadsAs false keyText (.placed .free key))
    (h : ReadsAs false text (.placed .free value)) :
    PropertyReads (.computed default key value)
      ⟨"\x7bk:" ++ keyText ++ ",v:" ++ text ++ "\x7d", true⟩ := by
  refine ⟨rfl, fun hp => (nomatch hp), fun _ => ?_⟩
  have hk := readsAs_named (n := ⟨default, "k"⟩) rfl hkey
  have hv := readsAs_named (n := ⟨default, "v"⟩) rfl h
  have hpair :=
    ((hk.moreProperties hv.lastProperty).object false default).operand (p := .free) trivial
  have htext : "\x7bk:" ++ keyText ++ ",v:" ++ text ++ "\x7d" =
      "\x7b" ++ ("k" ++ ":" ++ keyText ++ "," ++ ("v" ++ ":" ++ text)) ++ "\x7d" := by
    rw [← String.toList_inj]
    simp
  rw [htext]
  exact hpair.2

theorem propertyReads_keyed {key : Key} {value : Node} {c : Code} (hkey : key.isSpelled = true)
    (h : CodeReads value c.text) :
    PropertyReads (Property.keyed l key value).normal ⟨key.code ++ ":" ++ c.text, false⟩ :=
  propertyReads_value hkey h.whole

theorem propertyReads_computed {key value : Node} {c k : Code} (hkey : CodeReads key k.text)
    (h : CodeReads value c.text) :
    PropertyReads (Property.computed l key value).normal
      ⟨"\x7bk:" ++ k.text ++ ",v:" ++ c.text ++ "\x7d", true⟩ :=
  propertyReads_pair hkey.whole h.whole

/-! ## All expressions -/

mutual

theorem generate_reads : ∀ (e : Node) {code : Code}, generate e = .ok code → e.isLegible = true →
    e.isSpelled = true → CodeReads e code.text
  | .identifier name, code, h, _, hs => by
    obtain rfl := Except.ok.inj h
    refine CodeReads.of_bare rfl fun p _ => ?_
    exact (bare_name hs _).operand (admits_primary p)
  | .literal l value, code, h, _, _ => by
    obtain rfl := Except.ok.inj h
    exact codeReads_literal value
  | .field l object name, code, h, hl, hs => by
    rw [Node.isLegible, Bool.and_eq_true] at hl
    rw [Node.isSpelled, Bool.and_eq_true] at hs
    obtain ⟨c, hc, hcode⟩ := generate_field_ok h
    exact codeReads_field h hcode (generate_reads object hc hl.2 hs.1) hl.1 hs.2
  | .index l object index, code, h, hl, hs => by
    rw [Node.isLegible, Bool.and_eq_true, Bool.and_eq_true] at hl
    rw [Node.isSpelled, Bool.and_eq_true] at hs
    obtain ⟨c, i, hc, hi, rfl⟩ := generate_index_ok h
    exact codeReads_index (generate_reads object hc hl.1.2 hs.1) (generate_reads index hi hl.2 hs.2)
      hl.1.1
  | .unary l op a, code, h, hl, hs => by
    rw [Node.isLegible, Bool.and_eq_true, Bool.not_eq_true'] at hl
    rw [Node.isSpelled] at hs
    obtain ⟨hop, c, hc, hcode⟩ := generate_unary_ok h
    refine codeReads_unary h ?_ hop (generate_reads a hc hl.2 hs) hl.1
    exact hcode.imp (fun ⟨_, f, _, _, hf⟩ => ⟨f, hf⟩) (·.2)
  | .binary l op a b, code, h, hl, hs => by
    rw [Node.isSpelled, Bool.and_eq_true] at hs
    simp only [Node.isLegible, Bool.and_eq_true, Bool.or_eq_true, Bool.not_eq_true'] at hl
    obtain ⟨⟨⟨hleft, hright⟩, hla⟩, hlb⟩ := hl
    obtain ⟨hop, c, d, hc, hd, hcode⟩ := generate_binary_ok h
    refine codeReads_binary h ?_ hop (generate_reads a hc hla hs.1) (generate_reads b hd hlb hs.2)
      ?_ ?_
    · exact hcode.imp (fun ⟨_, _, f, _, _, _, hf⟩ => ⟨f, hf⟩) (·.2)
    · intro hnumeric
      rcases hleft with hleft | hleft
      · rw [hnumeric] at hleft
        cases hleft
      · exact hleft
    · rcases hright with hright | hright
      · rcases isNumeric_or_isEquality hop with hop | hop <;> simp [hop] at hright
      · exact hright
  | .logical l op a b, code, h, hl, hs => by
    rw [Node.isLegible, Bool.and_eq_true] at hl
    rw [Node.isSpelled, Bool.and_eq_true] at hs
    obtain ⟨hop, c, d, hc, hd, hcode⟩ := generate_logical_ok h
    refine codeReads_logical h ?_ hop (generate_reads a hc hl.1 hs.1)
      (generate_reads b hd hl.2 hs.2)
    exact hcode.imp (fun ⟨_, _, f, _, _, _, hf⟩ => ⟨f, hf⟩) (·.2)
  | .conditional l t x y, code, h, hl, hs => by
    rw [Node.isLegible, Bool.and_eq_true, Bool.and_eq_true] at hl
    rw [Node.isSpelled, Bool.and_eq_true, Bool.and_eq_true] at hs
    obtain ⟨c, d, e, hc, hd, he, hcode⟩ := generate_conditional_ok h
    exact codeReads_conditional hc hcode (generate_reads t hc hl.1.1 hs.1.1)
      (generate_reads x hd hl.1.2 hs.1.2) (generate_reads y he hl.2 hs.2)
  | .call l f args, code, h, hl, hs => by
    rw [Node.isLegible, Bool.and_eq_true, Bool.and_eq_true] at hl
    rw [Node.isSpelled, Bool.and_eq_true] at hs
    obtain ⟨c, texts, hc, ht, rfl⟩ := generate_call_ok h
    exact codeReads_call (generate_reads f hc hl.1.2 hs.1) (generateList_reads args ht hl.2 hs.2)
      hl.1.1
  | .template l parts, code, h, hl, hs => by
    rw [Node.isLegible, Bool.and_eq_true, List.all_eq_true] at hl
    rw [Node.isSpelled] at hs
    obtain ⟨texts, ht, ⟨rfl, rfl⟩ | ⟨hne, rfl⟩⟩ := generate_template_ok h
    · refine CodeReads.of_bare rfl fun p _ => ?_
      exact (Constant.string "").operand fun _ x hx => nomatch hx
    · exact codeReads_template (generateParts_reads parts ht hl.2 hs)
        (fun e he => by simpa using hl.1 e he) hne
  | .array l es, code, h, hl, hs => by
    rw [Node.isLegible] at hl
    rw [Node.isSpelled] at hs
    obtain ⟨texts, ht, rfl⟩ := generate_array_ok h
    exact codeReads_array (generateList_reads es ht hl hs)
  | .object l ps, code, h, hl, hs => by
    rw [Node.isLegible] at hl
    rw [Node.isSpelled] at hs
    obtain ⟨codes, hc, rfl⟩ := generate_object_ok h
    exact codeReads_object (generateProperties_reads ps hc hl hs)

theorem generateList_reads : ∀ (es : List Node) {texts : List String},
    generateList es = .ok texts → areLegible es = true → areSpelled es = true →
    List.Forall₂ (fun e text => ReadsAs false text (.placed .free e)) (normalList es) texts
  | [], texts, h, _, _ => by
    obtain rfl := Except.ok.inj h
    exact .nil
  | e :: es, texts, h, hl, hs => by
    rw [areLegible, Bool.and_eq_true] at hl
    rw [areSpelled, Bool.and_eq_true] at hs
    simp only [generateList, bind_eq_ok, pure_eq_ok, Except.ok.injEq] at h
    obtain ⟨code, hcode, rest, hrest, rfl⟩ := h
    exact .cons (generate_reads e hcode hl.1 hs.1).whole (generateList_reads es hrest hl.2 hs.2)

theorem generateParts_reads : ∀ (es : List Node) {texts : List String},
    generateParts es = .ok texts → areLegible es = true → areSpelled es = true →
    List.Forall₂ PartReads es texts
  | [], texts, h, _, _ => by
    obtain rfl := Except.ok.inj h
    exact .nil
  | e :: es, texts, h, hl, hs => by
    rw [areLegible, Bool.and_eq_true] at hl
    rw [areSpelled, Bool.and_eq_true] at hs
    simp only [generateParts, bind_eq_ok, pure_eq_ok, Except.ok.injEq] at h
    obtain ⟨code, hcode, rest, hrest, rfl⟩ := h
    exact .cons (generate_reads e hcode hl.1 hs.1).placed (generateParts_reads es hrest hl.2 hs.2)

theorem generateProperties_reads : ∀ (ps : List Property) {codes : List PropertyCode},
    generateProperties ps = .ok codes → propertiesLegible ps = true → propertiesSpelled ps = true →
    List.Forall₂ PropertyReads (normalProperties ps) codes
  | [], codes, h, _, _ => by
    obtain rfl := Except.ok.inj h
    exact .nil
  | p :: ps, codes, h, hl, hs => by
    rw [propertiesLegible, Bool.and_eq_true] at hl
    rw [propertiesSpelled, Bool.and_eq_true] at hs
    simp only [generateProperties, bind_eq_ok, pure_eq_ok, Except.ok.injEq] at h
    obtain ⟨code, hcode, rest, hrest, rfl⟩ := h
    exact .cons (generateProperty_reads p hcode hl.1 hs.1)
      (generateProperties_reads ps hrest hl.2 hs.2)

theorem generateProperty_reads : ∀ (p : Property) {code : PropertyCode},
    generateProperty p = .ok code → p.isLegible = true → p.isSpelled = true →
    PropertyReads p.normal code
  | .shorthand name, code, h, _, hs => by
    obtain rfl := Except.ok.inj h
    exact propertyReads_shorthand hs
  | .keyed l key value, code, h, hl, hs => by
    rw [Property.isLegible] at hl
    rw [Property.isSpelled, Bool.and_eq_true] at hs
    simp only [generateProperty, bind_eq_ok, pure_eq_ok, Except.ok.injEq] at h
    obtain ⟨c, hc, rfl⟩ := h
    exact propertyReads_keyed hs.1 (generate_reads value hc hl hs.2)
  | .computed l key value, code, h, hl, hs => by
    rw [Property.isLegible, Bool.and_eq_true] at hl
    rw [Property.isSpelled, Bool.and_eq_true] at hs
    simp only [generateProperty, bind_eq_ok, pure_eq_ok, Except.ok.injEq] at h
    obtain ⟨c, hc, k, hk, rfl⟩ := h
    exact propertyReads_computed (generate_reads key hk hl.1 hs.1)
      (generate_reads value hc hl.2 hs.2)

end

end VueToSan.Expr
