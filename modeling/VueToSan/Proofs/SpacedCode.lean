import Mathlib.Data.List.Chain
import VueToSan.Proofs.CodeEdges

/-!
# Blanks in code

Where an expression holds no texts, its code has blanks in two places only: one space behind the
comma of a list, and one behind a sign that the same sign follows. So there are no runs of blanks
to collapse, and no blank follows a word.
-/

namespace VueToSan.Text

/-- Every blank of a text is a space behind a comma or a sign, and none stands at its start. -/
structure Spaced (cs : List Char) : Prop where
  first : ∀ c ∈ cs.head?, isBlank c = false
  chain : cs.IsChain fun a b => isBlank b = true → b = ' ' ∧ a ∈ [',', '+', '-']

namespace Spaced

variable {cs ds : List Char}

theorem of_visible (h : ∀ c ∈ cs, isBlank c = false) : Spaced cs where
  first c hc := h c (List.mem_of_head? hc)
  chain := by
    induction cs with
    | nil => exact .nil
    | cons c cs ih =>
      rw [List.forall_mem_cons] at h
      refine List.isChain_cons.2 ⟨fun d hd hblank => ?_, ih h.2⟩
      rw [h.2 d (List.mem_of_head? hd)] at hblank
      cases hblank

theorem append (hcs : Spaced cs) (hds : Spaced ds) : Spaced (cs ++ ds) where
  first c hc := by
    rw [List.head?_append] at hc
    rcases Option.or_eq_some_iff.1 hc with hc | ⟨-, hc⟩
    · exact hcs.first c hc
    · exact hds.first c hc
  chain := by
    refine List.isChain_append.2 ⟨hcs.chain, hds.chain, fun a _ b hb hblank => ?_⟩
    rw [hds.first b hb] at hblank
    cases hblank

theorem mark_space {m : Char} (hm : m ∈ [',', '+', '-']) (h : Spaced cs) :
    Spaced (m :: ' ' :: cs) where
  first c hc := by
    obtain rfl := Option.some.inj hc
    exact forall_of_all (P := fun c => isBlank c = false) (by decide) m hm
  chain := by
    refine List.isChain_cons_cons.2 ⟨fun _ => ⟨rfl, hm⟩, ?_⟩
    refine List.isChain_cons.2 ⟨fun d hd hblank => ?_, h.chain⟩
    rw [h.first d hd] at hblank
    cases hblank

theorem collapse_eq (h : Spaced cs) : collapse cs = cs := by
  -- Only a space may stand at the start, and only if no blank stands before.
  have hchain : ∀ inRun, (∀ c ∈ cs.head?, isBlank c = true → c = ' ' ∧ inRun = false) →
      collapseFrom inRun cs = cs := by
    have hcs := h.chain
    clear h
    induction cs with
    | nil => exact fun _ _ => rfl
    | cons c cs ih =>
      intro inRun hfirst
      obtain ⟨hnext, hrest⟩ := List.isChain_cons.1 hcs
      rw [collapseFrom]
      split
      · rename_i hblank
        obtain ⟨rfl, rfl⟩ := hfirst c rfl hblank
        rw [if_neg Bool.false_ne_true, ih hrest true]
        intro d hd hd'
        exact absurd (hnext d hd hd').2 (by decide)
      · rw [ih hrest false fun d hd hd' => ⟨(hnext d hd hd').1, rfl⟩]
  apply hchain
  intro c hc hblank
  rw [h.first c hc] at hblank
  cases hblank

end Spaced

end VueToSan.Text

namespace VueToSan.Expr

open VueToSan.Text VueToSan.Number

/-! ## Expressions without texts -/

def Key.isTextless : Key → Bool
  | .string .. => false
  | _ => true

mutual

/-- Whether an expression holds neither string literals nor template strings. -/
def Node.isTextless : Node → Bool
  | .identifier _ => true
  | .literal _ (.string _) => false
  | .literal _ _ => true
  | .field _ object _ => object.isTextless
  | .index _ object index => object.isTextless && index.isTextless
  | .unary _ _ argument => argument.isTextless
  | .binary _ _ left right => left.isTextless && right.isTextless
  | .logical _ _ left right => left.isTextless && right.isTextless
  | .conditional _ test consequent alternate =>
    test.isTextless && consequent.isTextless && alternate.isTextless
  | .call _ callee arguments => callee.isTextless && areTextless arguments
  | .template _ _ => false
  | .array _ elements => areTextless elements
  | .object _ properties => propertiesTextless properties

def areTextless : List Node → Bool
  | [] => true
  | e :: es => e.isTextless && areTextless es

def propertiesTextless : List Property → Bool
  | [] => true
  | p :: ps => p.isTextless && propertiesTextless ps

def Property.isTextless : Property → Bool
  | .shorthand _ => true
  | .keyed _ key value => key.isTextless && value.isTextless
  | .computed _ key value => key.isTextless && value.isTextless

end

/-! ## Constants that are no texts -/

def Constant.isText : Constant → Bool
  | .string _ => true
  | _ => false

theorem isText_unary {op : UnaryOp} {a v : Constant} (h : Constant.unary? op a = some v) :
    v.isText = false := by
  cases op <;> simp [Constant.unary?] at h <;> rw [← h] <;> rfl

theorem isText_add {a b : Constant} (ha : a.isText = false) (hb : b.isText = false) :
    (a.add b).isText = false := by
  cases a with
  | string s => cases ha
  | _ =>
    cases b with
    | string s => cases hb
    | _ => rfl

theorem isText_binary {op : BinaryOp} {a b v : Constant} (ha : a.isText = false)
    (hb : b.isText = false) (h : Constant.binary? op a b = some v) : v.isText = false := by
  have hadd := isText_add ha hb
  cases op <;> simp [Constant.binary?] at h <;> rw [← h] <;> first | exact hadd | rfl

theorem isText_logical {op : LogicalOp} {a b v : Constant} (ha : a.isText = false)
    (hb : b.isText = false) (h : Constant.logical? op a b = some v) : v.isText = false := by
  cases op <;> simp [Constant.logical?] at h <;> rw [← h] <;> split <;> assumption

/-! ## Texts of code -/

theorem spaced_append {a b : String} (ha : Spaced a.toList) (hb : Spaced b.toList) :
    Spaced (a ++ b).toList := by
  rw [String.toList_append]
  exact ha.append hb

theorem spaced_fixed {s : String} (h : s.toList.all (fun c => decide (isBlank c = false)) = true) :
    Spaced s.toList :=
  .of_visible (forall_of_all h)

theorem spaced_word {name : String} (h : isWord name = true) : Spaced name.toList := by
  obtain ⟨c, cs, hcs, hstart, hparts⟩ := exists_of_isWord h
  rw [hcs]
  refine .of_visible (List.forall_mem_cons.2 ⟨?_, fun d hd => ?_⟩)
  · exact isBlank_of_visible (visible_of_isIdentStart hstart)
  · exact (visible_of_isIdentPart (hparts d hd)).1

theorem spaced_number (x : Float) : Spaced (formatNumber x).toList :=
  .of_visible fun c hc => (visible_of_isNumberChar (isNumberChar_format x c hc)).1

theorem flatMap_quoteChar_number (x : Float) :
    (formatNumber x).toList.flatMap quoteChar = (formatNumber x).toList := by
  have hplain : ∀ c, isNumberChar c = true → quoteChar c = [c] := by
    intro c hc
    unfold quoteChar
    split_ifs with hslash hquote hline hreturn
    · exact absurd (hslash ▸ hc) (by decide)
    · exact absurd (hquote ▸ hc) (by decide)
    · exact absurd (hline ▸ hc) (by decide)
    · exact absurd (hreturn ▸ hc) (by decide)
    · rfl
  have hall := isNumberChar_format x
  generalize (formatNumber x).toList = cs at hall
  induction cs with
  | nil => rfl
  | cons c cs ih =>
    rw [List.forall_mem_cons] at hall
    rw [List.flatMap_cons, hplain c hall.1, ih hall.2, List.singleton_append]

theorem spaced_key {k : Key} (hspelled : k.isSpelled = true) (h : k.isTextless = true) :
    Spaced k.code.toList := by
  cases k with
  | name n => exact spaced_word hspelled
  | string l text => cases h
  | number l value =>
    have hcode : (Key.number l value).code.toList =
        '\x27' :: ((formatNumber value).toList ++ ['\x27']) := by
      rw [Key.code, quote, String.toList_ofList, quoteChars, flatMap_quoteChar_number]
    have hquote : Spaced ['\x27'] := .of_visible (forall_of_all (by decide))
    rw [hcode]
    exact hquote.append ((spaced_number value).append hquote)

theorem spaced_enclosed {o c text : String}
    (ho : o.toList.all (fun c => decide (isBlank c = false)) = true)
    (hc : c.toList.all (fun c => decide (isBlank c = false)) = true) (h : Spaced text.toList) :
    Spaced (o ++ text ++ c).toList :=
  spaced_append (spaced_append (spaced_fixed ho) h) (spaced_fixed hc)

theorem spaced_wrap {text : String} (h : Spaced text.toList) (e : Node) :
    Spaced (wrap text e).toList := by
  have hparens := spaced_enclosed (o := "(") (c := ")") (by decide) (by decide) h
  unfold wrap
  split
  · split
    · exact h
    · exact hparens
  · exact hparens
  · exact hparens
  · exact h

theorem spaced_joinOperator {left op right : String} (hleft : Spaced left.toList)
    (hop : op.toList.all (fun c => decide (isBlank c = false)) = true)
    (hright : Spaced right.toList) : Spaced (joinOperator left op right).toList := by
  unfold joinOperator
  split_ifs with hsign
  · rw [Bool.and_eq_true, Bool.or_eq_true, beq_iff_eq, beq_iff_eq] at hsign
    rcases hsign.1 with rfl | rfl
    · have htext : (left ++ "+" ++ " " ++ right).toList =
          left.toList ++ '+' :: ' ' :: right.toList := by simp
      rw [htext]
      exact hleft.append (hright.mark_space (by decide))
    · have htext : (left ++ "-" ++ " " ++ right).toList =
          left.toList ++ '-' :: ' ' :: right.toList := by simp
      rw [htext]
      exact hleft.append (hright.mark_space (by decide))
  · exact spaced_append (spaced_append hleft (spaced_fixed hop)) hright

theorem spaced_joinWith {sep : String} (hsep : sep = "," ∨ sep = ", ") {texts : List String}
    (h : ∀ text ∈ texts, Spaced text.toList) : Spaced (joinWith sep texts).toList := by
  induction texts with
  | nil => exact .of_visible (List.forall_mem_nil _)
  | cons text texts ih =>
    rw [List.forall_mem_cons] at h
    cases texts with
    | nil => exact h.1
    | cons next texts =>
      have hjoin : (joinWith sep (text :: next :: texts)).toList =
          text.toList ++ (sep.toList ++ (joinWith sep (next :: texts)).toList) := by
        simp [joinWith]
      rw [hjoin]
      apply h.1.append
      rcases hsep with rfl | rfl
      · exact Spaced.append (spaced_fixed (by decide)) (ih h.2)
      · exact (ih h.2).mark_space (m := ',') (by decide)

theorem spaced_constant {v : Constant} (h : v.isText = false) : Spaced v.emit.toList := by
  cases v with
  | string s => cases h
  | number x => exact spaced_number x
  | boolean b => cases b <;> exact spaced_fixed (by decide)
  | null => exact spaced_fixed (by decide)
  | undefined => exact spaced_fixed (by decide)

theorem spaced_joint (before : Option Bool) (computed : Bool) :
    Spaced (joint before computed).toList := by
  rcases before with _ | _ | _ <;> cases computed <;> exact spaced_fixed (by decide)

theorem spaced_runsFrom {ps : List PropertyCode} (h : ∀ p ∈ ps, Spaced p.text.toList)
    (before : Option Bool) : Spaced (runsFrom before ps).toList := by
  induction ps generalizing before with
  | nil =>
    rw [runsFrom]
    split <;> exact spaced_fixed (by decide)
  | cons p ps ih =>
    rw [List.forall_mem_cons] at h
    exact spaced_append (spaced_append (spaced_joint before p.computed) h.1) (ih h.2 _)

theorem spaced_object {ps : List PropertyCode} (h : ∀ p ∈ ps, Spaced p.text.toList) :
    Spaced (objectCode ps).text.toList := by
  unfold objectCode
  split
  · exact spaced_append (spaced_fixed (by decide)) (spaced_runsFrom h none)
  · apply spaced_enclosed (by decide) (by decide)
    apply spaced_joinWith (.inl rfl)
    intro text htext
    obtain ⟨p, hp, rfl⟩ := List.mem_map.1 htext
    exact h p hp

/-! ## Code with a constant -/

/-- Spaced code, with a constant that is no text if it has one. -/
structure Code.IsSpaced (code : Code) : Prop where
  text : Spaced code.text.toList
  constant : ∀ v ∈ code.constant, v.isText = false

theorem Code.IsSpaced.plain {text : String} (h : Spaced text.toList) :
    (Code.plain text).IsSpaced where
  text := h
  constant _ hv := by cases hv

theorem Code.IsSpaced.ofConstant {v : Constant} (h : v.isText = false) :
    (Code.ofConstant v).IsSpaced where
  text := spaced_constant h
  constant w hw := by
    obtain rfl := Option.some.inj hw
    exact h

theorem Code.IsSpaced.field {c : Code} (h : c.IsSpaced) (object : Node) {name : String}
    (hname : isWord name = true) : (fieldCode c (wrap c.text object) name).IsSpaced := by
  rcases fieldCode_cases c (wrap c.text object) name with ⟨x, hfold⟩ | ⟨hnone, htext⟩
  · rw [hfold]
    exact .ofConstant rfl
  · refine ⟨?_, by simp [hnone]⟩
    rw [htext]
    exact spaced_append (spaced_append (spaced_wrap h.text object) (spaced_fixed (by decide)))
      (spaced_word hname)

section Operators

variable {l : Location} {a b t : Node} {code : Code}

theorem spaced_unary {op : UnaryOp} (h : generate (.unary l op a) = .ok code)
    (ha : ∀ {c}, generate a = .ok c → c.IsSpaced) : code.IsSpaced := by
  obtain ⟨hop, c, hc, ⟨_, f, _, hf, rfl⟩ | ⟨-, rfl⟩⟩ := generate_unary_ok h
  · exact .ofConstant (isText_unary hf)
  · have hall : ∀ op ∈ admittedUnary,
        op.text.toList.all (fun c => decide (isBlank c = false)) = true := by decide
    exact .plain (spaced_joinOperator (spaced_fixed (by decide)) (hall op hop)
      (spaced_wrap (ha hc).text a))

theorem spaced_binary {op : BinaryOp} (h : generate (.binary l op a b) = .ok code)
    (ha : ∀ {c}, generate a = .ok c → c.IsSpaced) (hb : ∀ {c}, generate b = .ok c → c.IsSpaced) :
    code.IsSpaced := by
  obtain ⟨hop, c, d, hc, hd, hcode⟩ := generate_binary_ok h
  rcases hcode with ⟨u, v, f, hu, hv, hf, rfl⟩ | ⟨-, rfl⟩
  · exact .ofConstant (isText_binary ((ha hc).constant u hu) ((hb hd).constant v hv) hf)
  · have hall : ∀ op ∈ admittedBinary,
        op.text.toList.all (fun c => decide (isBlank c = false)) = true := by decide
    exact .plain (spaced_joinOperator (spaced_wrap (ha hc).text a) (hall op hop)
      (spaced_wrap (hb hd).text b))

theorem spaced_logical {op : LogicalOp} (h : generate (.logical l op a b) = .ok code)
    (ha : ∀ {c}, generate a = .ok c → c.IsSpaced) (hb : ∀ {c}, generate b = .ok c → c.IsSpaced) :
    code.IsSpaced := by
  obtain ⟨hop, c, d, hc, hd, hcode⟩ := generate_logical_ok h
  rcases hcode with ⟨u, v, f, hu, hv, hf, rfl⟩ | ⟨-, rfl⟩
  · exact .ofConstant (isText_logical ((ha hc).constant u hu) ((hb hd).constant v hv) hf)
  · have hall : ∀ op ∈ admittedLogical,
        op.text.toList.all (fun c => decide (isBlank c = false)) = true := by decide
    exact .plain (spaced_append (spaced_append (spaced_wrap (ha hc).text a)
      (spaced_fixed (hall op hop))) (spaced_wrap (hb hd).text b))

theorem spaced_conditional (h : generate (.conditional l t a b) = .ok code)
    (ht : ∀ {c}, generate t = .ok c → c.IsSpaced) (ha : ∀ {c}, generate a = .ok c → c.IsSpaced)
    (hb : ∀ {c}, generate b = .ok c → c.IsSpaced) : code.IsSpaced := by
  obtain ⟨c, d, e, hc, hd, he, hcode⟩ := generate_conditional_ok h
  have hyes := ha hd
  have hno := hb he
  rcases hcode with ⟨v, -, rfl⟩ | ⟨-, rfl⟩
  · split
    · exact hyes
    · exact hno
  · exact .plain (spaced_append (spaced_append (spaced_append (spaced_append
      (spaced_wrap (ht hc).text t) (spaced_fixed (by decide))) (spaced_wrap hyes.text a))
      (spaced_fixed (by decide))) (spaced_wrap hno.text b))

end Operators

/-! ## All code -/

mutual

theorem spaced_generate : ∀ (e : Node) {code : Code}, generate e = .ok code →
    e.isSpelled = true → e.isTextless = true → code.IsSpaced
  | .identifier name, code, h, hs, ht => by
    obtain rfl := Except.ok.inj h
    exact .plain (spaced_word (isWord_of_isName hs))
  | .literal l value, code, h, hs, ht => by
    obtain rfl := Except.ok.inj h
    apply Code.IsSpaced.ofConstant
    cases value with
    | string s => cases ht
    | _ => rfl
  | .field l object name, code, h, hs, ht => by
    rw [Node.isSpelled, Bool.and_eq_true] at hs
    rw [Node.isTextless] at ht
    obtain ⟨c, hc, rfl⟩ := generate_field_ok h
    exact (spaced_generate object hc hs.1 ht).field object hs.2
  | .index l object index, code, h, hs, ht => by
    rw [Node.isSpelled, Bool.and_eq_true] at hs
    rw [Node.isTextless, Bool.and_eq_true] at ht
    obtain ⟨c, i, hc, hi, rfl⟩ := generate_index_ok h
    have hobject := spaced_wrap (spaced_generate object hc hs.1 ht.1).text object
    exact .plain (spaced_append (spaced_append (spaced_append hobject (spaced_fixed (by decide)))
      (spaced_generate index hi hs.2 ht.2).text) (spaced_fixed (by decide)))
  | .unary l op a, code, h, hs, ht => by
    rw [Node.isSpelled] at hs
    rw [Node.isTextless] at ht
    exact spaced_unary h (spaced_generate a · hs ht)
  | .binary l op a b, code, h, hs, ht => by
    rw [Node.isSpelled, Bool.and_eq_true] at hs
    rw [Node.isTextless, Bool.and_eq_true] at ht
    exact spaced_binary h (spaced_generate a · hs.1 ht.1) (spaced_generate b · hs.2 ht.2)
  | .logical l op a b, code, h, hs, ht => by
    rw [Node.isSpelled, Bool.and_eq_true] at hs
    rw [Node.isTextless, Bool.and_eq_true] at ht
    exact spaced_logical h (spaced_generate a · hs.1 ht.1) (spaced_generate b · hs.2 ht.2)
  | .conditional l t x y, code, h, hs, ht => by
    rw [Node.isSpelled, Bool.and_eq_true, Bool.and_eq_true] at hs
    rw [Node.isTextless, Bool.and_eq_true, Bool.and_eq_true] at ht
    exact spaced_conditional h (spaced_generate t · hs.1.1 ht.1.1)
      (spaced_generate x · hs.1.2 ht.1.2) (spaced_generate y · hs.2 ht.2)
  | .call l f args, code, h, hs, ht => by
    rw [Node.isSpelled, Bool.and_eq_true] at hs
    rw [Node.isTextless, Bool.and_eq_true] at ht
    obtain ⟨c, texts, hc, hargs, rfl⟩ := generate_call_ok h
    have hcallee := spaced_wrap (spaced_generate f hc hs.1 ht.1).text f
    exact .plain (spaced_append (spaced_append (spaced_append hcallee (spaced_fixed (by decide)))
      (spaced_joinWith (.inr rfl) (spaced_generateList args hargs hs.2 ht.2)))
      (spaced_fixed (by decide)))
  | .template l parts, code, h, hs, ht => by cases ht
  | .array l es, code, h, hs, ht => by
    rw [Node.isSpelled] at hs
    rw [Node.isTextless] at ht
    obtain ⟨texts, hes, rfl⟩ := generate_array_ok h
    refine ⟨?_, fun _ hv => by cases hv⟩
    exact spaced_enclosed (by decide) (by decide)
      (spaced_joinWith (.inr rfl) (spaced_generateList es hes hs ht))
  | .object l ps, code, h, hs, ht => by
    rw [Node.isSpelled] at hs
    rw [Node.isTextless] at ht
    obtain ⟨codes, hc, rfl⟩ := generate_object_ok h
    refine ⟨spaced_object (spaced_generateProperties ps hc hs ht), ?_⟩
    unfold objectCode
    split <;> exact fun _ hv => by cases hv

theorem spaced_generateList : ∀ (es : List Node) {texts : List String},
    generateList es = .ok texts → areSpelled es = true → areTextless es = true →
    ∀ text ∈ texts, Spaced text.toList
  | [], texts, h, _, _ => by
    obtain rfl := Except.ok.inj h
    simp
  | e :: es, texts, h, hs, ht => by
    rw [areSpelled, Bool.and_eq_true] at hs
    rw [areTextless, Bool.and_eq_true] at ht
    simp only [generateList, bind_eq_ok, pure_eq_ok, Except.ok.injEq] at h
    obtain ⟨code, hcode, rest, hrest, rfl⟩ := h
    rw [List.forall_mem_cons]
    exact ⟨(spaced_generate e hcode hs.1 ht.1).text, spaced_generateList es hrest hs.2 ht.2⟩

theorem spaced_generateProperties : ∀ (ps : List Property) {codes : List PropertyCode},
    generateProperties ps = .ok codes → propertiesSpelled ps = true →
    propertiesTextless ps = true → ∀ code ∈ codes, Spaced code.text.toList
  | [], codes, h, _, _ => by
    obtain rfl := Except.ok.inj h
    simp
  | p :: ps, codes, h, hs, ht => by
    rw [propertiesSpelled, Bool.and_eq_true] at hs
    rw [propertiesTextless, Bool.and_eq_true] at ht
    simp only [generateProperties, bind_eq_ok, pure_eq_ok, Except.ok.injEq] at h
    obtain ⟨code, hcode, rest, hrest, rfl⟩ := h
    rw [List.forall_mem_cons]
    exact ⟨spaced_generateProperty p hcode hs.1 ht.1,
      spaced_generateProperties ps hrest hs.2 ht.2⟩

theorem spaced_generateProperty : ∀ (p : Property) {code : PropertyCode},
    generateProperty p = .ok code → p.isSpelled = true → p.isTextless = true →
    Spaced code.text.toList
  | .shorthand name, code, h, hs, _ => by
    obtain rfl := Except.ok.inj h
    have hname := spaced_word (isWord_of_isName hs)
    exact spaced_append (spaced_append hname (spaced_fixed (by decide))) hname
  | .keyed l key value, code, h, hs, ht => by
    rw [Property.isSpelled, Bool.and_eq_true] at hs
    rw [Property.isTextless, Bool.and_eq_true] at ht
    simp only [generateProperty, bind_eq_ok, pure_eq_ok, Except.ok.injEq] at h
    obtain ⟨c, hc, rfl⟩ := h
    exact spaced_append (spaced_append (spaced_key hs.1 ht.1) (spaced_fixed (by decide)))
      (spaced_generate value hc hs.2 ht.2).text
  | .computed l key value, code, h, hs, ht => by
    rw [Property.isSpelled, Bool.and_eq_true] at hs
    rw [Property.isTextless, Bool.and_eq_true] at ht
    simp only [generateProperty, bind_eq_ok, pure_eq_ok, Except.ok.injEq] at h
    obtain ⟨c, hc, k, hk, rfl⟩ := h
    exact spaced_append (spaced_append (spaced_append (spaced_append (spaced_fixed (by decide))
      (spaced_generate key hk hs.1 ht.1).text) (spaced_fixed (by decide)))
      (spaced_generate value hc hs.2 ht.2).text) (spaced_fixed (by decide))

end

theorem spaced_compile {source : String} {compiled : Compiled}
    (h : compile source = .ok compiled)
    (hplain : ∀ e, parse source = .ok e → e.filters = [] ∧ e.expression.isTextless = true) :
    Spaced compiled.text.toList := by
  cases hblank : allBlank source with
  | true =>
    rw [compile, if_pos hblank] at h
    obtain rfl := Except.ok.inj h
    exact .of_visible (List.forall_mem_nil _)
  | false =>
    obtain ⟨e, he⟩ := exists_parsed hblank h
    obtain ⟨hfilters, htextless⟩ := hplain e he
    obtain ⟨base, hbase, htext⟩ := compile_ok_unfiltered he h hfilters
    rw [← htext]
    exact (spaced_generate e.expression hbase (parse_isSpelled he).1 htextless).text

end VueToSan.Expr
