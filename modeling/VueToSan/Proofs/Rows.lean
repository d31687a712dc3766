import VueToSan.Proofs.AdmittedOperators
import VueToSan.Proofs.DottedNumbers

/-!
# Rows of operands

A row is what is left when all parentheses that are not needed for reading are dropped: operands
with operators between them, each operand with signs in front of it and accesses behind it. Every
row is read as some expression. Which one, the binding powers decide: behind a row another operator
joins the part of it that binds less tightly. Whichever it is, its operators are those of the row.
-/

namespace VueToSan.Expr

open VueToSan.Text

/-! ## Trees of rows -/

theorem Writes.placed_of_object {nested : Bool} {e : Node} {ts : List Token}
    (h : Writes nested (.placed .object e) ts) (p : Place) : Writes nested (.placed p e) ts := by
  cases h with
  | bare hadmits hnode =>
    refine .bare ?_ hnode
    cases hshape : e.shape with
    | primary => exact admits_primary p
    | _ => simp [hshape, Place.admits] at hadmits
  | parens hinner => exact .parens hinner

theorem Writes.placed_of_operand {nested : Bool} {e : Node} {ts : List Token}
    (h : Writes nested (.placed .operand e) ts) {p : Place} (hp : p ≠ .object) :
    Writes nested (.placed p e) ts := by
  cases h with
  | bare hadmits hnode =>
    refine .bare ?_ hnode
    cases hshape : e.shape with
    | primary => exact admits_primary p
    | unary => exact admits_unary hp
    | _ => simp [hshape, Place.admits] at hadmits
  | parens hinner => exact .parens hinner

/-- A tree that is written as a row; `root` is its outermost operator. -/
inductive Spine : (root : Option Infix) → Node → List Token → Prop where
  | operand {e : Node} {ts : List Token} (he : e.isAdmitted = true)
      (h : ∀ nested, Writes nested (.placed .operand e) ts) : Spine none e ts
  | joined {op : Infix} {a b : Node} {inner inner' : Option Infix} {ts us : List Token}
      (hop : op.IsAdmitted) (ha : Spine inner a ts) (hb : Spine inner' b us)
      (hleft : ∀ i ∈ inner, op.left < i.right) (hright : ∀ i ∈ inner', op.right ≤ i.left) :
      Spine (some op) (op.node default a b) (ts ++ op.token :: us)

theorem shape_node (op : Infix) (l : Location) (a b : Node) :
    (op.node l a b).shape = .joined op := by
  cases op <;> rfl

theorem Infix.ne_bitOr {op : Infix} (h : op.IsAdmitted) : op ≠ .binary .bitOr := by
  obtain ⟨-, -, -, -, hbar⟩ := Infix.exists_punct h
  exact hbar

theorem Spine.isAdmitted {root : Option Infix} {e : Node} {ts : List Token} (h : Spine root e ts) :
    e.isAdmitted = true := by
  induction h with
  | operand he h => exact he
  | joined hop ha hb hleft hright iha ihb => exact isAdmitted_joined hop iha ihb default

theorem Spine.placed {root : Option Infix} {e : Node} {ts : List Token} (h : Spine root e ts)
    {p : Place} (hp : p ≠ .object) (hroot : ∀ i ∈ root, p.admits (.joined i)) (nested : Bool) :
    Writes nested (.placed p e) ts := by
  induction h generalizing p with
  | operand he h => exact (h nested).placed_of_operand hp
  | @joined op a b inner inner' ts us hop ha hb hleft hright iha ihb =>
    refine .bare ?_ (.joined (.inr (Infix.ne_bitOr hop)) (iha (by simp) hleft) (ihb (by simp) hright))
    rw [shape_node]
    exact hroot op rfl

/-- Another operator joins a row from the right. It takes the whole row as its left operand, or it
goes on with the right operand of an operator that binds less tightly. -/
theorem Spine.append {root : Option Infix} {e x : Node} {ts us : List Token} {op : Infix}
    (h : Spine root e ts) (hop : op.IsAdmitted) (hadmitted : x.isAdmitted = true)
    (hx : ∀ nested, Writes nested (.placed .operand x) us) :
    ∃ root' e', Spine root' e' (ts ++ op.token :: us) ∧ (root' = some op ∨ root' = root) := by
  induction h with
  | operand he h =>
    exact ⟨some op, _, .joined hop (.operand he h) (.operand hadmitted hx) (by simp) (by simp),
      .inl rfl⟩
  | @joined op' a b inner inner' ts vs hop' ha hb hleft hright iha ihb =>
    by_cases htight : op.left < op'.right
    · have hwhole : Spine (some op') (op'.node default a b) (ts ++ op'.token :: vs) :=
        .joined hop' ha hb hleft hright
      exact ⟨some op, _, .joined hop hwhole (.operand hadmitted hx) (by simpa using htight)
        (by simp), .inl rfl⟩
    · obtain ⟨root', b', hb', hroot⟩ := ihb
      have hright' : ∀ i ∈ root', op'.right ≤ i.left := by
        rcases hroot with rfl | rfl
        · simpa using htight
        · exact hright
      refine ⟨some op', op'.node default a b', ?_, .inr rfl⟩
      rw [List.append_assoc, List.cons_append]
      exact .joined hop' ha hb' hleft hright'

/-! ## Rows of tokens -/

/-- Signs and an expression behind which accesses may stand. -/
inductive SignedRow : List Token → Prop where
  | object {e : Node} {ts : List Token} (he : e.isAdmitted = true)
      (h : ∀ nested, Writes nested (.placed .object e) ts) : SignedRow ts
  | sign {op : UnaryOp} (hop : op ∈ admittedUnary) {ts : List Token} (h : SignedRow ts) :
      SignedRow (op.token :: ts)

inductive Row : List Token → Prop where
  | single {ts : List Token} (h : SignedRow ts) : Row ts
  | append {op : Infix} {ts us : List Token} (h : Row ts) (hop : op.IsAdmitted)
      (hus : SignedRow us) : Row (ts ++ op.token :: us)

theorem SignedRow.operand {ts : List Token} (h : SignedRow ts) :
    ∃ e, e.isAdmitted = true ∧ ∀ nested, Writes nested (.placed .operand e) ts := by
  induction h with
  | object he h => exact ⟨_, he, fun nested => (h nested).placed_of_object .operand⟩
  | sign hop h ih =>
    obtain ⟨e, he, hwrites⟩ := ih
    exact ⟨.unary default _ e, isAdmitted_unary hop he default,
      fun nested => .bare trivial (.unary (hwrites nested))⟩

theorem Row.spine {ts : List Token} (h : Row ts) : ∃ root e, Spine root e ts := by
  induction h with
  | single h =>
    obtain ⟨e, he, hwrites⟩ := h.operand
    exact ⟨none, e, .operand he hwrites⟩
  | append h hop hus ih =>
    obtain ⟨root, e, he⟩ := ih
    obtain ⟨x, hx, hwrites⟩ := hus.operand
    obtain ⟨root', e', he', -⟩ := he.append hop hx hwrites
    exact ⟨root', e', he'⟩

theorem Row.placed {ts : List Token} (h : Row ts) {p : Place} (hp : p = .test ∨ p = .free) :
    ∃ e, e.isAdmitted = true ∧ ∀ nested, Writes nested (.placed p e) ts := by
  obtain ⟨root, e, he⟩ := h.spine
  refine ⟨e, he.isAdmitted, fun nested => he.placed ?_ (fun i _ => ?_) nested⟩
  · rcases hp with rfl | rfl <;> simp
  · rcases hp with rfl | rfl <;> trivial

theorem Row.sign {ts : List Token} (h : Row ts) {op : UnaryOp} (hop : op ∈ admittedUnary) :
    Row (op.token :: ts) := by
  induction h with
  | single h => exact .single (.sign hop h)
  | append h hop hus ih => exact .append ih hop hus

theorem Row.joined {op : Infix} {ts us : List Token} (hts : Row ts) (hus : Row us)
    (hop : op.IsAdmitted) : Row (ts ++ op.token :: us) := by
  induction hus with
  | single h => exact .append hts hop h
  | append h hop' hus ih =>
    rw [← List.cons_append, ← List.append_assoc]
    exact .append ih hop' hus

theorem Row.access {ts access : List Token} (h : Row ts)
    (haccess : ∀ e ts, e.isAdmitted = true → (∀ nested, Writes nested (.placed .object e) ts) →
      ∃ e', e'.isAdmitted = true ∧ ∀ nested, Writes nested (.placed .object e') (ts ++ access)) :
    Row (ts ++ access) := by
  have hsigned : ∀ ts, SignedRow ts → SignedRow (ts ++ access) := by
    intro ts hts
    induction hts with
    | object he h =>
      obtain ⟨e', he', hwrites⟩ := haccess _ _ he h
      exact .object he' hwrites
    | sign hop h ih => exact .sign hop ih
  cases h with
  | single h => exact .single (hsigned ts h)
  | append h hop hus =>
    rw [List.append_assoc, List.cons_append]
    exact .append h hop (hsigned _ hus)

/-! ## Texts of rows -/

theorem Stops.mono {dot : Bool} {rest : List Char} (h : Stops dot rest) : Stops true rest :=
  fun c hc => ⟨(h c hc).1, fun _ => rfl⟩

theorem Lexes.weaken {cs : List Char} {ts : List Token} (h : Lexes true cs ts) (dot : Bool) :
    Lexes dot cs ts := fun rest hrest => h rest hrest.mono

def ReadsAdmitted (text : String) : Prop :=
  ∃ e, e.isAdmitted = true ∧ ReadsAs false text (.placed .free e)

/-- A text is cut into the tokens of a row; `dot` says whether a dot may follow. -/
def RowReads (dot : Bool) (text : String) : Prop :=
  StartsOperand text.toList ∧ ∃ ts, Lexes dot text.toList ts ∧ Row ts

namespace RowReads

variable {dot before : Bool} {text : String}

theorem weaken (h : RowReads dot text) : RowReads false text := by
  cases dot with
  | false => exact h
  | true =>
    obtain ⟨hstart, ts, hlex, hrow⟩ := h
    exact ⟨hstart, ts, hlex.weaken false, hrow⟩

theorem operand (h : RowReads dot text) {p : Place} (hp : p = .test ∨ p = .free) :
    ∃ e, e.isAdmitted = true ∧ Operand p e text := by
  obtain ⟨hstart, ts, hlex, hrow⟩ := h.weaken
  obtain ⟨e, he, hwrites⟩ := hrow.placed hp
  refine ⟨e, he, hstart, ts, ?_, hwrites⟩
  rcases hp with rfl | rfl <;> exact hlex

theorem whole (h : RowReads dot text) : ReadsAdmitted text := by
  obtain ⟨e, he, hread⟩ := h.operand (.inr rfl)
  exact ⟨e, he, hread.2⟩

theorem of_objectReads {e : Node} (he : e.isAdmitted = true) (h : ObjectReads dot e text) :
    RowReads dot text := by
  obtain ⟨hstart, ts, hlex, hwrites⟩ := h
  exact ⟨hstart, ts, hlex, .single (.object he hwrites)⟩

theorem of_object {e : Node} (he : e.isAdmitted = true) (h : Operand .object e text) (dot : Bool) :
    RowReads dot text := by
  obtain ⟨hstart, ts, hlex, hwrites⟩ := h
  exact ⟨hstart, ts, hlex.weaken dot, .single (.object he hwrites)⟩

theorem of_bare {e : Node} (he : e.isAdmitted = true) (h : Bare dot e text)
    (hshape : e.shape = .primary) : RowReads dot text :=
  of_objectReads he (h.objectReads hshape)

theorem space (h : RowReads dot text) : RowReads dot (" " ++ text) := by
  obtain ⟨-, ts, hlex, hrow⟩ := h
  refine ⟨startsOperand_append ⟨' ', [], rfl, by decide⟩, ts, ?_, hrow⟩
  rw [String.toList_append]
  exact hlex.space

theorem sign (h : RowReads dot text) {op : UnaryOp} (hop : op ∈ admittedUnary) :
    RowReads dot (op.text ++ text) := by
  obtain ⟨q, htoken, htext, hdot, hopening⟩ := unary_punct hop
  obtain ⟨hstart, ts, hlex, hrow⟩ := h
  refine ⟨startsOperand_append hopening, op.token :: ts, ?_, hrow.sign hop⟩
  rw [String.toList_append, htext, htoken]
  exact (Lexes.nil false).mark hlex hdot (.inr hstart)

theorem joined {left : String} (hleft : RowReads before left) (h : RowReads dot text) {op : Infix}
    (hop : op.IsAdmitted) : RowReads dot (left ++ op.text ++ text) := by
  obtain ⟨q, htoken, htext, hdot, -⟩ := Infix.exists_punct hop
  obtain ⟨hstart, ts, hlex, hrow⟩ := hleft
  obtain ⟨hstart', us, hlex', hrow'⟩ := h
  refine ⟨startsOperand_append (startsOperand_append hstart), ts ++ op.token :: us, ?_,
    hrow.joined hrow' hop⟩
  rw [htoken, htext]
  exact hlex.join hlex' hdot (.inr hstart')

theorem field (h : RowReads true text) {name : String} (hname : isWord name = true) :
    RowReads dot (text ++ "." ++ name) := by
  obtain ⟨hstart, ts, hlex, hrow⟩ := h
  refine ⟨startsOperand_append (startsOperand_append hstart),
    ts ++ [.punct .dot, wordToken name], ?_, hrow.access fun e us he hus => ?_⟩
  · rw [String.toList_append, String.toList_append, List.append_assoc]
    exact hlex.member hname
  · exact ⟨.field default e ⟨default, name⟩, he, fun nested =>
      .bare trivial (.field (hus nested) (memberName?_wordToken name))⟩

theorem index (h : RowReads before text) {inner : String} (hinner : ReadsAdmitted inner) :
    RowReads dot (text ++ "[" ++ inner ++ "]") := by
  obtain ⟨hstart, ts, hlex, hrow⟩ := h
  obtain ⟨i, hi, us, hinner, hwrites⟩ := hinner
  refine ⟨startsOperand_append (startsOperand_append (startsOperand_append hstart)), _,
    hlex.enclosed (o := .lbracket) (c := .rbracket) hinner rfl rfl,
    hrow.access fun e vs he hvs => ?_⟩
  exact ⟨.index default e i, by rw [Node.isAdmitted, he, hi]; rfl,
    fun nested => .bare trivial (.index (hvs nested) (hwrites true))⟩

theorem call (h : RowReads before text) {inner : String} {args : List Node}
    (hadmitted : areAdmitted args = true) (hargs : ReadsAs false inner (.items args)) :
    RowReads dot (text ++ "(" ++ inner ++ ")") := by
  obtain ⟨hstart, ts, hlex, hrow⟩ := h
  obtain ⟨us, hinner, hwrites⟩ := hargs
  refine ⟨startsOperand_append (startsOperand_append (startsOperand_append hstart)), _,
    hlex.enclosed (o := .lparen) (c := .rparen) hinner rfl rfl,
    hrow.access fun e vs he hvs => ?_⟩
  exact ⟨.call default e args, by rw [Node.isAdmitted, he, hadmitted]; rfl,
    fun nested => .bare trivial (.call (hvs nested) (hwrites true))⟩

end RowReads

/-! ## Constants -/

theorem rowReads_signed {dot negative : Bool} {cs : List Char}
    (h : RowReads dot (String.ofList cs)) :
    RowReads dot (String.ofList (Number.signed negative cs)) := by
  cases negative with
  | false => exact h
  | true =>
    have htext : String.ofList ('-' :: cs) = UnaryOp.minus.text ++ String.ofList cs := by
      rw [← String.toList_inj]
      simp [UnaryOp.text]
    rw [Number.signed, if_pos rfl, htext]
    exact h.sign (by decide)

theorem all_signed {negative : Bool} {cs : List Char} (h : cs.all isDigit = true) :
    (Number.signed negative cs).all (fun c => isDigit c || c == '-') = true := by
  unfold Number.signed
  split <;> simp_all

theorem objectReads_number (x : Float) : ∃ negative cs e,
    formatNumber x = String.ofList (Number.signed negative cs) ∧ e.isAdmitted = true ∧
      ObjectReads (!(Constant.number x).isWhole) e (String.ofList cs) := by
  cases hx : Number.decode x with
  | nan =>
    refine ⟨false, "NaN".toList, .ofName "NaN", ?_, rfl, ?_⟩
    · rw [formatNumber, Number.Layout.write, hx]
      rfl
    · rw [String.ofList_toList]
      exact (bare_name (n := ⟨default, "NaN"⟩) rfl _).objectReads rfl
  | infinite negative =>
    refine ⟨negative, "Infinity".toList, .ofName "Infinity", ?_, rfl, ?_⟩
    · rw [formatNumber, Number.Layout.write, hx]
      rfl
    · rw [String.ofList_toList]
      exact (bare_name (n := ⟨default, "Infinity"⟩) rfl _).objectReads rfl
  | finite negative m e =>
    obtain ⟨cs, htext, hwrites⟩ := Number.write_finite (f := numberLayout) rfl rfl hx
    have hformat : formatNumber x = String.ofList (Number.signed (negative && m != 0) cs) := by
      rw [← htext, String.ofList_toList]
      rfl
    refine ⟨negative && m != 0, cs, .literal default (.number x.abs), hformat, rfl, ?_⟩
    rw [← String.toList_ofList (l := cs)] at hwrites
    have hbare := bare_number hwrites default
    cases hwhole : (Constant.number x).isWhole with
    | true => exact hbare.objectReads rfl
    | false =>
      have hdigits : (String.ofList cs).toList.all isDigit = false := by
        rw [Bool.eq_false_iff]
        intro hall
        rw [Constant.isWhole, hformat, String.toList_ofList] at hwhole
        rw [String.toList_ofList] at hall
        rw [all_signed hall] at hwhole
        cases hwhole
      -- The numeral has its point or its exponent already, so a point may follow.
      exact ⟨hbare.1, _, lexes_dotted hwrites hdigits, fun nested => .bare trivial .literal⟩

theorem rowReads_number (x : Float) : RowReads (!(Constant.number x).isWhole) (formatNumber x) := by
  obtain ⟨negative, cs, e, htext, he, h⟩ := objectReads_number x
  rw [htext]
  exact rowReads_signed (.of_objectReads he h)

theorem Constant.rowReads (v : Constant) : RowReads (!v.isWhole) v.emit := by
  cases v with
  | number x => exact rowReads_number x
  | string s => exact .of_object rfl ((Constant.string s).operand (by simp)) _
  | boolean b => exact .of_object rfl ((Constant.boolean b).operand (by simp)) _
  | null => exact .of_object rfl (Constant.null.operand (by simp)) _
  | undefined => exact .of_object rfl (Constant.undefined.operand (by simp)) _

end VueToSan.Expr
