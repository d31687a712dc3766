import VueToSan.Proofs.NormalForm
import VueToSan.Proofs.ParsedNames

/-!
# Phrases of code

A phrase is a text together with what it is read as: it is cut into tokens that write an expression
at a place, a list of items or a list of properties. There is one statement for each way in which
code is put together from smaller code.
-/

namespace VueToSan.Expr

open VueToSan.Text

def Place.beforeDot : Place → Bool
  | .object => true
  | _ => false

/-- A text is read as a form, inside brackets and outside; `dot` says whether a dot may follow. -/
def ReadsAs (dot : Bool) (text : String) (form : Form) : Prop :=
  ∃ ts, Lexes dot text.toList ts ∧ ∀ nested, Writes nested form ts

def Bare (dot : Bool) (e : Node) (text : String) : Prop :=
  StartsOperand text.toList ∧ ReadsAs dot text (.node e)

def Operand (p : Place) (e : Node) (text : String) : Prop :=
  StartsOperand text.toList ∧ ReadsAs p.beforeDot text (.placed p e)

theorem Bare.operand {p : Place} {e : Node} {text : String} (h : Bare p.beforeDot e text)
    (hp : p.admits e.shape) : Operand p e text := by
  obtain ⟨hstart, ts, hlex, hwrites⟩ := h
  exact ⟨hstart, ts, hlex, fun nested => .bare hp (hwrites nested)⟩

/-- A text is read as an expression behind which accesses may stand; `dot` says whether a point may
be the first of them. -/
def ObjectReads (dot : Bool) (e : Node) (text : String) : Prop :=
  StartsOperand text.toList ∧ ReadsAs dot text (.placed .object e)

theorem Bare.objectReads {dot : Bool} {e : Node} {text : String} (h : Bare dot e text)
    (hshape : e.shape = .primary) : ObjectReads dot e text := by
  obtain ⟨hstart, ts, hlex, hwrites⟩ := h
  refine ⟨hstart, ts, hlex, fun nested => .bare ?_ (hwrites nested)⟩
  rw [hshape]
  trivial

theorem admits_primary (p : Place) : p.admits .primary := by
  cases p <;> trivial

theorem admits_unary {p : Place} (h : p ≠ .object) : p.admits .unary := by
  cases p <;> trivial

theorem beforeDot_eq_false {p : Place} (h : p ≠ .object) : p.beforeDot = false := by
  cases p with
  | object => contradiction
  | _ => rfl

/-! ## Texts around marks -/

theorem Lexes.join {before after : Bool} {a b : String} {ts us : List Token} {p : Punct}
    (ha : Lexes before a.toList ts) (hb : Lexes after b.toList us) (hp : p ≠ .dot)
    (hnext : p.isLoose = true ∨ StartsOperand b.toList) :
    Lexes after (a ++ p.text ++ b).toList (ts ++ .punct p :: us) := by
  rw [String.toList_append, String.toList_append, List.append_assoc]
  exact ha.mark hb hp hnext

theorem Punct.ne_dot_of_isLoose {p : Punct} (h : p.isLoose = true) : p ≠ .dot := by
  rintro rfl
  cases h

theorem Lexes.enclosed {before after : Bool} {a b : String} {ts us : List Token} {o c : Punct}
    (ha : Lexes before a.toList ts) (hb : Lexes false b.toList us) (ho : o.isLoose = true)
    (hc : c.isLoose = true) :
    Lexes after (a ++ o.text ++ b ++ c.text).toList (ts ++ .punct o :: (us ++ [.punct c])) := by
  have hclose := hb.mark (Lexes.nil after) (Punct.ne_dot_of_isLoose hc) (.inl hc)
  have hopen := ha.mark hclose (Punct.ne_dot_of_isLoose ho) (.inl ho)
  simpa [String.toList_append, List.append_assoc] using hopen

theorem Lexes.between {dot : Bool} {a : String} {ts : List Token} {o c : Punct}
    (ha : Lexes false a.toList ts) (ho : o.isLoose = true) (hc : c.isLoose = true) :
    Lexes dot (o.text ++ a ++ c.text).toList (.punct o :: (ts ++ [.punct c])) := by
  have h : Lexes dot ("" ++ o.text ++ a ++ c.text).toList ([] ++ .punct o :: (ts ++ [.punct c])) :=
    (Lexes.nil false).enclosed ha ho hc
  simpa using h

theorem startsOperand_append {a b : String} (h : StartsOperand a.toList) :
    StartsOperand (a ++ b).toList := by
  rw [String.toList_append]
  exact h.append b.toList

theorem Operand.parens {e : Node} {text : String} (p : Place)
    (h : ReadsAs false text (.placed .free e)) : Operand p e ("(" ++ text ++ ")") := by
  obtain ⟨ts, hlex, hwrites⟩ := h
  refine ⟨startsOperand_append (startsOperand_append ⟨'(', [], rfl, by decide⟩), _,
    hlex.between (o := .lparen) (c := .rparen) rfl rfl, ?_⟩
  exact fun nested => .parens (hwrites true)

/-! ## Words and constants -/

theorem bare_name {n : Name} (h : isName n.text = true) (dot : Bool) :
    Bare dot (.identifier n) n.text := by
  have hlex := lexes_word (isWord_of_isName h) dot
  rw [wordToken_of_isName h] at hlex
  exact ⟨startsOperand_word (isWord_of_isName h), _, hlex, fun nested => .identifier⟩

theorem bare_keyword {k : Keyword} {v : Literal} (h : v.token = .keyword k) (dot : Bool)
    (l : Location) : Bare dot (.literal l v) k.text := by
  have hlex := lexes_word (isWord_keyword k) dot
  have hword : wordToken k.text = v.token := by
    rw [h]
    cases k <;> rfl
  rw [hword] at hlex
  exact ⟨startsOperand_word (isWord_keyword k), _, hlex, fun nested => .literal⟩

theorem bare_quote (s : String) (dot : Bool) (l : Location) :
    Bare dot (.literal l (.string s)) (quote s) := by
  have hquote : (quote s).toList = '\x27' :: (s.toList.flatMap quoteChar ++ ['\x27']) := by
    rw [quote, String.toList_ofList, quoteChars]
  exact ⟨⟨'\x27', _, hquote, by decide⟩, _, lexes_quote s dot, fun nested => .literal⟩

theorem bare_number {text : String} {x : Float} (h : Number.WritesNumber text.toList x)
    (l : Location) : Bare false (.literal l (.number x)) text := by
  refine ⟨?_, _, lexes_number h, fun nested => .literal⟩
  obtain ⟨c, tail, htext, hdigit, -⟩ := h.head
  exact ⟨c, tail, htext, by simp [isOpening, isIdentPart, hdigit]⟩

theorem unary_punct {op : UnaryOp} (h : op ∈ admittedUnary) :
    ∃ q : Punct, op.token = .punct q ∧ op.text = q.text ∧ q ≠ .dot ∧
      StartsOperand op.text.toList := by
  cases op with
  | plus => exact ⟨.plus, rfl, rfl, by decide, '+', [], rfl, by decide⟩
  | minus => exact ⟨.minus, rfl, rfl, by decide, '-', [], rfl, by decide⟩
  | not => exact ⟨.bang, rfl, rfl, by decide, '!', [], rfl, by decide⟩
  | bitNot => exact absurd h (by decide)
  | typeof => exact absurd h (by decide)
  | void => exact absurd h (by decide)

theorem Operand.unary {p : Place} {op : UnaryOp} {e : Node} {text : String}
    (h : Operand .operand e text) (hop : op ∈ admittedUnary) (hp : p ≠ .object) (l : Location) :
    Operand p (.unary l op e) (op.text ++ text) := by
  obtain ⟨q, htoken, htext, hdot, hopening⟩ := unary_punct hop
  obtain ⟨hstart, ts, hlex, hwrites⟩ := h
  have hsign : Lexes false (op.text ++ text).toList (op.token :: ts) := by
    rw [String.toList_append, htext, htoken]
    exact (Lexes.nil false).mark hlex hdot (.inr hstart)
  rw [← beforeDot_eq_false hp] at hsign
  exact Bare.operand
    ⟨startsOperand_append hopening, _, hsign, fun nested => .unary (hwrites nested)⟩
    (admits_unary hp)

theorem Operand.signed {p : Place} {e : Node} {cs : List Char} (hp : p ≠ .object) (negative : Bool)
    (h : ∀ q, q ≠ .object → Operand q e (String.ofList cs)) :
    Operand p (.negatedIf negative e) (String.ofList (Number.signed negative cs)) := by
  cases negative with
  | false => exact h p hp
  | true =>
    have htext : String.ofList ('-' :: cs) = "-" ++ String.ofList cs := by
      rw [← String.toList_inj]
      simp
    simp only [Node.negatedIf, Number.signed, if_true, htext]
    have hminus : UnaryOp.minus ∈ admittedUnary := by decide
    exact (h .operand (by simp)).unary hminus hp default

theorem numberNode_operand (x : Float) {p : Place} (hp : p ≠ .object) :
    Operand p (numberNode x) (formatNumber x) := by
  cases hx : Number.decode x with
  | nan =>
    have htext : formatNumber x = "NaN" := by
      rw [formatNumber, Number.Layout.write, hx]
      rfl
    rw [numberNode, hx, htext]
    exact (bare_name (n := ⟨default, "NaN"⟩) rfl _).operand (admits_primary p)
  | infinite negative =>
    have htext : formatNumber x =
        String.ofList (Number.signed negative "Infinity".toList) := by
      rw [formatNumber, Number.Layout.write, hx]
      rfl
    rw [numberNode, hx, htext]
    refine Operand.signed hp negative fun q hq => ?_
    rw [String.ofList_toList]
    exact (bare_name (n := ⟨default, "Infinity"⟩) rfl _).operand (admits_primary q)
  | finite negative m e =>
    obtain ⟨cs, htext, hwrites⟩ := Number.write_finite (f := numberLayout) rfl rfl hx
    have hformat : formatNumber x = String.ofList (Number.signed (negative && m != 0) cs) := by
      rw [← htext, String.ofList_toList]
      rfl
    rw [numberNode, hx, hformat]
    refine Operand.signed hp _ fun q hq => ?_
    rw [← String.toList_ofList (l := cs)] at hwrites
    have hbare := bare_number hwrites default
    rw [← beforeDot_eq_false hq] at hbare
    exact hbare.operand (admits_primary q)

theorem Constant.operand (v : Constant) {p : Place} (h : p = .object → ∀ x, v ≠ .number x) :
    Operand p v.node v.emit := by
  cases v with
  | number x => exact numberNode_operand x fun hp => h hp x rfl
  | string s => exact (bare_quote s _ default).operand (admits_primary p)
  | boolean b =>
    cases b with
    | false => exact (bare_keyword (k := .false) rfl _ default).operand (admits_primary p)
    | true => exact (bare_keyword (k := .true) rfl _ default).operand (admits_primary p)
  | null => exact (bare_keyword (k := .null) rfl _ default).operand (admits_primary p)
  | undefined =>
    exact (bare_name (n := ⟨default, "undefined"⟩) rfl _).operand (admits_primary p)

theorem Constant.readsAs (v : Constant) : ReadsAs false v.emit (.placed .free v.node) :=
  (v.operand (p := .free) (by simp)).2

/-! ## Members and calls -/

theorem Operand.field {o : Node} {text : String} {n : Name} (h : Operand .object o text)
    (hn : isWord n.text = true) (dot : Bool) (l : Location) :
    Bare dot (.field l o n) (text ++ "." ++ n.text) := by
  obtain ⟨hstart, ts, hlex, hwrites⟩ := h
  refine ⟨startsOperand_append (startsOperand_append hstart),
    ts ++ [.punct .dot, wordToken n.text], ?_, ?_⟩
  · rw [String.toList_append, String.toList_append, List.append_assoc]
    exact hlex.member hn
  · exact fun nested => .field (hwrites nested) (memberName?_wordToken n.text)

theorem ObjectReads.index {before : Bool} {o i : Node} {text inner : String}
    (h : ObjectReads before o text) (hi : ReadsAs false inner (.placed .free i)) (dot : Bool)
    (l : Location) : Bare dot (.index l o i) (text ++ "[" ++ inner ++ "]") := by
  obtain ⟨hstart, ts, hlex, hwrites⟩ := h
  obtain ⟨us, hinner, hwrites'⟩ := hi
  exact ⟨startsOperand_append (startsOperand_append (startsOperand_append hstart)), _,
    hlex.enclosed (o := .lbracket) (c := .rbracket) hinner rfl rfl,
    fun nested => .index (hwrites nested) (hwrites' true)⟩

theorem ObjectReads.call {before : Bool} {f : Node} {args : List Node} {text inner : String}
    (h : ObjectReads before f text) (hargs : ReadsAs false inner (.items args)) (dot : Bool)
    (l : Location) : Bare dot (.call l f args) (text ++ "(" ++ inner ++ ")") := by
  obtain ⟨hstart, ts, hlex, hwrites⟩ := h
  obtain ⟨us, hinner, hwrites'⟩ := hargs
  exact ⟨startsOperand_append (startsOperand_append (startsOperand_append hstart)), _,
    hlex.enclosed (o := .lparen) (c := .rparen) hinner rfl rfl,
    fun nested => .call (hwrites nested) (hwrites' true)⟩

theorem Operand.index {o i : Node} {text inner : String} (h : Operand .object o text)
    (hi : ReadsAs false inner (.placed .free i)) (dot : Bool) (l : Location) :
    Bare dot (.index l o i) (text ++ "[" ++ inner ++ "]") :=
  ObjectReads.index h hi dot l

theorem Operand.call {f : Node} {args : List Node} {text inner : String}
    (h : Operand .object f text) (hargs : ReadsAs false inner (.items args)) (dot : Bool)
    (l : Location) :
    Bare dot (.call l f args) (text ++ "(" ++ inner ++ ")") :=
  ObjectReads.call h hargs dot l

/-! ## Operators -/

def Infix.text : Infix → String
  | .binary op => op.text
  | .logical op => op.text

def Infix.IsAdmitted : Infix → Prop
  | .binary op => op ∈ admittedBinary
  | .logical op => op ∈ admittedLogical

theorem Infix.exists_punct {op : Infix} (h : op.IsAdmitted) :
    ∃ q : Punct, op.token = .punct q ∧ op.text = q.text ∧ q ≠ .dot ∧ op ≠ .binary .bitOr := by
  cases op with
  | binary op =>
    simp only [Infix.IsAdmitted, admittedBinary, List.mem_cons, List.not_mem_nil, or_false] at h
    rcases h with rfl | rfl | rfl | rfl | rfl | rfl | rfl | rfl | rfl | rfl | rfl | rfl | rfl <;>
      exact ⟨_, rfl, rfl, by decide, by decide⟩
  | logical op => cases op <;> exact ⟨_, rfl, rfl, by decide, by decide⟩

theorem ReadsAs.space {dot : Bool} {text : String} {form : Form} (h : ReadsAs dot text form) :
    ReadsAs dot (" " ++ text) form := by
  obtain ⟨ts, hlex, hwrites⟩ := h
  refine ⟨ts, ?_, hwrites⟩
  rw [String.toList_append]
  exact hlex.space

theorem Operand.space {p : Place} {e : Node} {text : String} (h : Operand p e text) :
    Operand p e (" " ++ text) :=
  ⟨startsOperand_append ⟨' ', [], rfl, by decide⟩, h.2.space⟩

theorem joinOperator_cases (left op right : String) :
    joinOperator left op right = left ++ op ++ right ∨
      joinOperator left op right = left ++ op ++ (" " ++ right) := by
  unfold joinOperator
  split_ifs
  · exact .inr (String.append_assoc ..)
  · exact .inl rfl

theorem Operand.joined {op : Infix} {a b : Node} {s t : String} (ha : Operand (.left op) a s)
    (hb : Operand (.right op) b t) (hop : op.IsAdmitted) (l : Location) :
    Bare false (op.node l a b) (s ++ op.text ++ t) := by
  obtain ⟨q, htoken, htext, hdot, hbar⟩ := Infix.exists_punct hop
  obtain ⟨hstart, ts, hlex, hwrites⟩ := ha
  obtain ⟨hstart', us, hlex', hwrites'⟩ := hb
  refine ⟨startsOperand_append (startsOperand_append hstart), ts ++ op.token :: us, ?_, ?_⟩
  · rw [htoken, htext]
    exact hlex.join hlex' hdot (.inr hstart')
  · exact fun nested => .joined (.inr hbar) (hwrites nested) (hwrites' nested)

theorem Operand.conditional {t x y : Node} {s u v : String} (ht : Operand .test t s)
    (hx : Operand .free x u) (hy : Operand .free y v) (l : Location) :
    Bare false (.conditional l t x y) (s ++ "?" ++ u ++ ":" ++ v) := by
  obtain ⟨hstart, ts, hlex, hwrites⟩ := ht
  obtain ⟨hstart', us, hlex', hwrites'⟩ := hx
  obtain ⟨hstart'', vs, hlex'', hwrites''⟩ := hy
  have hcolon := hlex'.join (p := .colon) hlex'' (by decide) (.inr hstart'')
  have hquestion : Lexes false (s ++ "?" ++ (u ++ ":" ++ v)).toList _ :=
    hlex.join (p := .question) hcolon (by decide)
      (.inr (startsOperand_append (startsOperand_append hstart')))
  have htext : s ++ "?" ++ u ++ ":" ++ v = s ++ "?" ++ (u ++ ":" ++ v) := by
    simp only [String.append_assoc]
  rw [htext]
  exact ⟨startsOperand_append (startsOperand_append hstart), _, hquestion,
    fun nested => .conditional (hwrites nested) (hwrites' nested) (hwrites'' nested)⟩

/-! ## Lists -/

theorem readsAs_noItems : ReadsAs false "" (.items []) :=
  ⟨[], Lexes.nil false, fun _ => .noItems⟩

theorem ReadsAs.lastItem {e : Node} {s : String} (h : ReadsAs false s (.placed .free e)) :
    ReadsAs false s (.items [e]) := by
  obtain ⟨ts, hlex, hwrites⟩ := h
  exact ⟨ts, hlex, fun nested => .lastItem (hwrites nested)⟩

theorem ReadsAs.moreItems {e : Node} {es : List Node} {s t : String}
    (h : ReadsAs false s (.placed .free e)) (hs : ReadsAs false t (.items es)) :
    ReadsAs false (s ++ "," ++ t) (.items (e :: es)) := by
  obtain ⟨ts, hlex, hwrites⟩ := h
  obtain ⟨us, hlex', hwrites'⟩ := hs
  exact ⟨_, hlex.join (p := .comma) hlex' (by decide) (.inl rfl),
    fun nested => .moreItems (hwrites nested) (hwrites' nested)⟩

theorem ReadsAs.lastProperty {p : Property} {s : String} (h : ReadsAs false s (.property p)) :
    ReadsAs false s (.properties [p]) := by
  obtain ⟨ts, hlex, hwrites⟩ := h
  exact ⟨ts, hlex, fun nested => .lastProperty (hwrites nested)⟩

theorem ReadsAs.moreProperties {p : Property} {ps : List Property} {s t : String}
    (h : ReadsAs false s (.property p)) (hs : ReadsAs false t (.properties ps)) :
    ReadsAs false (s ++ "," ++ t) (.properties (p :: ps)) := by
  obtain ⟨ts, hlex, hwrites⟩ := h
  obtain ⟨us, hlex', hwrites'⟩ := hs
  exact ⟨_, hlex.join (p := .comma) hlex' (by decide) (.inl rfl),
    fun nested => .moreProperties (hwrites nested) (hwrites' nested)⟩

theorem readsAs_items {es : List Node} {texts : List String}
    (h : List.Forall₂ (fun e text => ReadsAs false text (.placed .free e)) es texts) :
    ReadsAs false (joinWith ", " texts) (.items es) := by
  induction h with
  | nil => exact readsAs_noItems
  | @cons e text es texts he hes ih =>
    cases hes with
    | nil => exact he.lastItem
    | @cons e' text' es texts he' hes =>
      have hjoin : joinWith ", " (text :: text' :: texts) =
          text ++ "," ++ (" " ++ joinWith ", " (text' :: texts)) := by
        rw [← String.toList_inj]
        simp [joinWith]
      rw [hjoin]
      exact he.moreItems ih.space

theorem readsAs_arguments {es : List Node} {texts : List String}
    (h : List.Forall₂ (fun e text => ReadsAs false text (.placed .free e)) es texts) :
    ReadsAs false (joinWith "," texts) (.items es) := by
  induction h with
  | nil => exact readsAs_noItems
  | @cons e text es texts he hes ih =>
    cases hes with
    | nil => exact he.lastItem
    | cons he' hes => exact he.moreItems ih

theorem readsAs_properties {ps : List Property} {texts : List String}
    (h : List.Forall₂ (fun p text => ReadsAs false text (.property p)) ps texts) :
    ReadsAs false (joinWith "," texts) (.properties ps) := by
  induction h with
  | nil => exact ⟨[], Lexes.nil false, fun _ => .noProperties⟩
  | @cons p text ps texts hp hps ih =>
    cases hps with
    | nil => exact hp.lastProperty
    | cons hp' hps => exact hp.moreProperties ih

/-! ## Brackets -/

theorem ReadsAs.array {es : List Node} {text : String} (h : ReadsAs false text (.items es))
    (dot : Bool) (l : Location) : Bare dot (.array l es) ("[" ++ text ++ "]") := by
  obtain ⟨ts, hlex, hwrites⟩ := h
  exact ⟨startsOperand_append (startsOperand_append ⟨'[', [], rfl, by decide⟩), _,
    hlex.between (o := .lbracket) (c := .rbracket) rfl rfl,
    fun nested => .array (hwrites true)⟩

theorem ReadsAs.object {ps : List Property} {text : String}
    (h : ReadsAs false text (.properties ps)) (dot : Bool) (l : Location) :
    Bare dot (.object l ps) ("\x7b" ++ text ++ "\x7d") := by
  obtain ⟨ts, hlex, hwrites⟩ := h
  exact ⟨startsOperand_append (startsOperand_append ⟨'{', [], rfl, by decide⟩), _,
    hlex.between (o := .lbrace) (c := .rbrace) rfl rfl,
    fun nested => .object (hwrites true)⟩

theorem readsAs_keyed {k : Key} {v : Node} {t : Token} {s text : String}
    (hkey : Lexes false s.toList [t]) (ht : k.WrittenBy t)
    (h : ReadsAs false text (.placed .free v)) (l : Location) :
    ReadsAs false (s ++ ":" ++ text) (.property (.keyed l k v)) := by
  obtain ⟨ts, hlex, hwrites⟩ := h
  exact ⟨_, hkey.join (p := .colon) hlex (by decide) (.inl rfl),
    fun nested => .keyed ht (hwrites nested)⟩

theorem Key.lexes_code {k : Key} (h : k.isSpelled = true) :
    ∃ t, Lexes false k.code.toList [t] ∧ k.normal.WrittenBy t := by
  cases k with
  | name n => exact ⟨_, lexes_word h false, memberName?_wordToken n.text⟩
  | string l text => exact ⟨_, lexes_quote text false, rfl⟩
  | number l value => exact ⟨_, lexes_quote (formatNumber value) false, rfl⟩

end VueToSan.Expr
