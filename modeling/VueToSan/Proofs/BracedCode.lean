import VueToSan.Proofs.AttributeValues
import VueToSan.Proofs.ParseableCode
import VueToSan.Transform.Rule

/-!
# Code between double braces

An interpolation ends at the first double brace that closes no brace of its code and stands in no
string. The braces of generated code are balanced, so that an interpolation around it ends where it
was closed, and is read as the expression of the code.
-/

namespace VueToSan.San

open VueToSan.Text

/-! ## Texts of code -/

/-- The text between the quotes of a string literal. -/
def isBody : List Char → Bool
  | [] => true
  | '\\' :: c :: cs => c != '\n' && isBody cs
  | c :: cs => c != '\\' && c != '\x27' && c != '\n' && isBody cs

def isPlainChar (c : Char) : Bool :=
  !Expr.opensString c && c != '{' && c != '}' && c != ';' && (!isBlank c || c == ' ')

/-- Characters of code that lead from one number of open braces to another. The strings among them
are in single quotes. -/
inductive Crosses : Nat → List Char → Nat → Prop
  | nil {d : Nat} : Crosses d [] d
  | plain {d e : Nat} {c : Char} {cs : List Char} : isPlainChar c = true → Crosses d cs e →
      Crosses d (c :: cs) e
  | opening {d e : Nat} {cs : List Char} : Crosses (d + 1) cs e → Crosses d ('{' :: cs) e
  | closing {d e : Nat} {cs : List Char} : Crosses d cs e → Crosses (d + 1) ('}' :: cs) e
  | string {d e : Nat} {s cs : List Char} : isBody s = true → Crosses d cs e →
      Crosses d ('\x27' :: (s ++ '\x27' :: cs)) e

/-! ## Interpolations of code -/

theorem spanInterpolation_plain {c : Char} (h : isPlainChar c = true) (depth : Nat)
    (rest : List Char) : spanInterpolation depth none (c :: rest) =
      (spanInterpolation depth none rest).map fun r => (c :: r.1, r.2) := by
  simp only [isPlainChar, Expr.opensString, Bool.and_eq_true, Bool.not_eq_true', Bool.or_eq_false_iff,
    beq_eq_false_iff_ne, bne_iff_ne] at h
  obtain ⟨⟨⟨⟨⟨⟨hsingle, hdouble⟩, hback⟩, hopen⟩, hclose⟩, -⟩, -⟩ := h
  rw [spanInterpolation]
  · simp [hsingle, hdouble, hback, hopen, hclose]
  · rintro rest - rfl
    exact absurd rfl hclose

theorem spanInterpolation_body {s : List Char} (h : isBody s = true) (depth : Nat)
    (rest : List Char) : spanInterpolation depth (some '\x27') (s ++ '\x27' :: rest) =
      (spanInterpolation depth none rest).map fun r => (s ++ '\x27' :: r.1, r.2) := by
  fun_induction isBody s with
  | case1 =>
    rw [List.nil_append, spanInterpolation]
    · simp
    · simp
  | case2 c cs ih =>
    rw [Bool.and_eq_true] at h
    rw [List.cons_append, List.cons_append, spanInterpolation, ih h.2, Option.map_map]
    rfl
  | case3 c cs hslash ih =>
    simp only [Bool.and_eq_true, bne_iff_ne] at h
    obtain ⟨⟨⟨hne, hquote⟩, -⟩, hcs⟩ := h
    rw [List.cons_append, spanInterpolation]
    · rw [if_neg hquote, ih hcs, Option.map_map]
      rfl
    · rintro d ds rfl
      exact absurd rfl hne

namespace Crosses

variable {d e m : Nat} {cs ds : List Char}

theorem append (h : Crosses d cs m) (h' : Crosses m ds e) : Crosses d (cs ++ ds) e := by
  induction h with
  | nil => exact h'
  | plain hc _ ih => exact .plain hc (ih h')
  | opening _ ih => exact .opening (ih h')
  | closing _ ih => exact .closing (ih h')
  | string hs _ ih =>
    rw [List.cons_append, List.append_assoc]
    exact .string hs (ih h')

theorem shift (h : Crosses d cs e) (k : Nat) : Crosses (d + k) cs (e + k) := by
  induction h with
  | nil => exact .nil
  | plain hc _ ih => exact .plain hc ih
  | opening _ ih =>
    rw [Nat.add_right_comm] at ih
    exact .opening ih
  | closing _ ih =>
    rw [Nat.add_right_comm]
    exact .closing ih
  | string hs _ ih => exact .string hs ih

theorem of_plain (h : ∀ c ∈ cs, isPlainChar c = true) (d : Nat) : Crosses d cs d := by
  induction cs with
  | nil => exact .nil
  | cons c cs ih =>
    rw [List.forall_mem_cons] at h
    exact .plain h.1 (ih h.2)

/-- An interpolation passes over the characters. -/
theorem interpolation (h : Crosses d cs e) (rest : List Char) :
    spanInterpolation d none (cs ++ rest) =
      (spanInterpolation e none rest).map fun r => (cs ++ r.1, r.2) := by
  induction h with
  | nil => simp
  | plain hc _ ih =>
    rw [List.cons_append, spanInterpolation_plain hc, ih, Option.map_map]
    rfl
  | opening _ ih =>
    rw [List.cons_append, spanInterpolation]
    · simp [ih, Function.comp_def]
    · simp
  | closing _ ih =>
    rw [List.cons_append, spanInterpolation]
    · simp [ih, Function.comp_def]
    · simp
  | string hs _ ih =>
    rw [List.cons_append, List.append_assoc, List.cons_append, spanInterpolation]
    · rw [if_pos (.inl rfl), spanInterpolation_body hs, ih]
      simp [Function.comp_def]
    · simp

end Crosses

theorem quoteChar_cases (c : Char) : (∃ d, d ≠ '\n' ∧ Expr.quoteChar c = ['\\', d]) ∨
    Expr.quoteChar c = [c] ∧ c ≠ '\\' ∧ c ≠ '\x27' ∧ c ≠ '\n' := by
  unfold Expr.quoteChar
  split_ifs with hslash hquote hline
  · exact .inl ⟨_, by decide, rfl⟩
  · exact .inl ⟨_, by decide, rfl⟩
  · exact .inl ⟨_, by decide, rfl⟩
  · exact .inl ⟨_, by decide, rfl⟩
  · exact .inr ⟨rfl, hslash, hquote, hline⟩

theorem isBody_quoted (s : List Char) : isBody (s.flatMap Expr.quoteChar) = true := by
  induction s with
  | nil => rfl
  | cons c s ih =>
    rw [List.flatMap_cons]
    rcases quoteChar_cases c with ⟨d, hd, htext⟩ | ⟨htext, hslash, hquote, hline⟩
    · rw [htext, List.cons_append, List.singleton_append, isBody, ih, Bool.and_true]
      simpa using hd
    · rw [htext, List.singleton_append, isBody]
      · simp [hslash, hquote, hline, ih]
      · rintro d ds rfl
        exact absurd rfl hslash

end VueToSan.San

namespace VueToSan.Expr

open VueToSan.Text VueToSan.San

/-- Code in which braces come in pairs and strings are in single quotes. -/
def IsPlainCode (text : String) : Prop := Crosses 0 text.toList 0

theorem plain_append {a b : String} (ha : IsPlainCode a) (hb : IsPlainCode b) :
    IsPlainCode (a ++ b) := by
  rw [IsPlainCode, String.toList_append]
  exact Crosses.append ha hb

theorem plain_fixed {s : String} (h : s.toList.all isPlainChar = true) : IsPlainCode s :=
  Crosses.of_plain (List.all_eq_true.1 h) 0

theorem plain_quote (s : String) : IsPlainCode (quote s) := by
  have htext : (quote s).toList = '\x27' :: (s.toList.flatMap quoteChar ++ ['\x27']) := by
    simp [quote, quoteChars]
  rw [IsPlainCode, htext]
  exact .string (isBody_quoted _) .nil

theorem plain_joinWith {sep : String} (hsep : IsPlainCode sep) {texts : List String}
    (h : ∀ text ∈ texts, IsPlainCode text) : IsPlainCode (joinWith sep texts) := by
  induction texts with
  | nil => exact .nil
  | cons text texts ih =>
    rw [List.forall_mem_cons] at h
    cases texts with
    | nil => exact h.1
    | cons next texts =>
      have hjoin : joinWith sep (text :: next :: texts) =
          text ++ (sep ++ joinWith sep (next :: texts)) := by
        rw [← String.toList_inj]
        simp [joinWith]
      rw [hjoin]
      exact plain_append h.1 (plain_append hsep (ih h.2))

theorem plain_enclosed {o c text : String} (ho : o.toList.all isPlainChar = true)
    (hc : c.toList.all isPlainChar = true) (h : IsPlainCode text) :
    IsPlainCode (o ++ text ++ c) :=
  plain_append (plain_append (plain_fixed ho) h) (plain_fixed hc)

theorem plain_braces {text : String} (h : IsPlainCode text) :
    IsPlainCode ("\x7b" ++ text ++ "\x7d") := by
  have htext : ("\x7b" ++ text ++ "\x7d").toList = '{' :: (text.toList ++ ['}']) := by simp
  rw [IsPlainCode, htext]
  exact .opening ((Crosses.shift h 1).append (.closing .nil))

theorem isPlainChar_of_isIdentPart {c : Char} (h : isIdentPart c = true) : isPlainChar c = true := by
  simp only [isPlainChar, opensString, (visible_of_isIdentPart h).1, Bool.and_eq_true,
    Bool.not_eq_true', Bool.or_eq_false_iff, beq_eq_false_iff_ne, bne_iff_ne]
  refine ⟨⟨⟨⟨⟨⟨?_, ?_⟩, ?_⟩, ?_⟩, ?_⟩, ?_⟩, rfl⟩ <;> rintro rfl <;> exact absurd h (by decide)

theorem plain_word {name : String} (h : isWord name = true) : IsPlainCode name := by
  obtain ⟨c, cs, htext, hstart, hparts⟩ := exists_of_isWord h
  rw [IsPlainCode, htext]
  refine .of_plain (List.forall_mem_cons.2 ?_) 0
  exact ⟨isPlainChar_of_isIdentPart (by rw [isIdentPart, hstart, Bool.true_or]),
    fun d hd => isPlainChar_of_isIdentPart (hparts d hd)⟩

theorem plain_number (x : Float) : IsPlainCode (formatNumber x) := by
  refine Crosses.of_plain (fun c hc => ?_) 0
  have hnumber := isNumberChar_format x c hc
  simp only [isPlainChar, opensString, (Number.visible_of_isNumberChar hnumber).1, Bool.and_eq_true,
    Bool.not_eq_true', Bool.or_eq_false_iff, beq_eq_false_iff_ne, bne_iff_ne]
  refine ⟨⟨⟨⟨⟨⟨?_, ?_⟩, ?_⟩, ?_⟩, ?_⟩, ?_⟩, rfl⟩ <;> rintro rfl <;>
    exact absurd hnumber (by decide)

theorem plain_constant (v : Constant) : IsPlainCode v.emit := by
  cases v with
  | number x => exact plain_number x
  | string s => exact plain_quote s
  | boolean b => cases b <;> exact plain_fixed (by decide)
  | null => exact plain_fixed (by decide)
  | undefined => exact plain_fixed (by decide)

theorem plain_wrap {text : String} (h : IsPlainCode text) (e : Node) :
    IsPlainCode (wrap text e) := by
  have hparens := plain_enclosed (o := "(") (c := ")") (by decide) (by decide) h
  unfold wrap
  split
  · split
    · exact h
    · exact hparens
  · exact hparens
  · exact hparens
  · exact h

theorem plain_operator {op : Infix} (h : op.IsAdmitted) : IsPlainCode op.text := by
  apply plain_fixed
  cases op with
  | binary op =>
    have hall : ∀ op ∈ admittedBinary, op.text.toList.all isPlainChar = true := by decide
    exact hall op h
  | logical op =>
    have hall : ∀ op ∈ admittedLogical, op.text.toList.all isPlainChar = true := by decide
    exact hall op h

theorem plain_joinOperator {left op right : String} (hleft : IsPlainCode left)
    (hop : IsPlainCode op) (hright : IsPlainCode right) :
    IsPlainCode (joinOperator left op right) := by
  rcases joinOperator_cases left op right with htext | htext
  · rw [htext]
    exact plain_append (plain_append hleft hop) hright
  · rw [htext]
    exact plain_append (plain_append hleft hop)
      (plain_append (plain_fixed (by decide)) hright)

theorem plain_key {k : Key} (h : k.isSpelled = true) : IsPlainCode k.code := by
  cases k with
  | name n => exact plain_word h
  | string l text => exact plain_quote text
  | number l value => exact plain_quote (formatNumber value)

/-- The properties behind one: a run of plain properties ends with a brace that it does not open. -/
theorem plain_runsFrom {ps : List PropertyCode} (h : ∀ p ∈ ps, IsPlainCode p.text) :
    IsPlainCode (runsFrom (some true) ps) ∧ Crosses 1 (runsFrom (some false) ps).toList 0 := by
  induction ps with
  | nil =>
    have hparen : Crosses 0 [')'] 0 := .of_plain (forall_of_all (by decide)) 0
    exact ⟨plain_fixed (by decide), .closing hparen⟩
  | cons p ps ih =>
    rw [List.forall_mem_cons] at h
    obtain ⟨htrue, hfalse⟩ := ih h.2
    have hfixed : ∀ s : String, s.toList.all isPlainChar = true → ∀ d, Crosses d s.toList d :=
      fun s hs => .of_plain (List.all_eq_true.1 hs)
    cases hcomputed : p.computed with
    | true =>
      have hrest : Crosses 0 (p.text.toList ++ (runsFrom (some true) ps).toList) 0 :=
        Crosses.append h.1 htrue
      refine ⟨?_, ?_⟩
      · have hcomma := (hfixed "," (by decide) 0).append hrest
        simpa [IsPlainCode, runsFrom, hcomputed, joint] using hcomma
      · have hopen := Crosses.closing ((hfixed ",_ocp([" (by decide) 0).append hrest)
        simpa [runsFrom, hcomputed, joint] using hopen
    | false =>
      have hrest : Crosses 1 (p.text.toList ++ (runsFrom (some false) ps).toList) 0 :=
        (Crosses.shift h.1 1).append hfalse
      refine ⟨?_, ?_⟩
      · have hclose := (hfixed "])," (by decide) 0).append (.opening hrest)
        simpa [IsPlainCode, runsFrom, hcomputed, joint] using hclose
      · have hcomma := (hfixed "," (by decide) 1).append hrest
        simpa [runsFrom, hcomputed, joint] using hcomma

theorem plain_object {ps : List PropertyCode} (h : ∀ p ∈ ps, IsPlainCode p.text) :
    IsPlainCode (objectCode ps).text := by
  unfold objectCode
  split
  · rename_i hany
    obtain ⟨p, ps, rfl⟩ : ∃ q qs, ps = q :: qs := by
      cases ps with
      | nil => cases hany
      | cons q qs => exact ⟨q, qs, rfl⟩
    rw [List.forall_mem_cons] at h
    obtain ⟨htrue, hfalse⟩ := plain_runsFrom h.2
    have hcall : Crosses 0 "_ex(".toList 0 := plain_fixed (by decide)
    cases hcomputed : p.computed with
    | true =>
      have hopen : Crosses 0 "_ocp([".toList 0 := plain_fixed (by decide)
      simpa [IsPlainCode, Code.plain, runsFrom, hcomputed, joint] using
        hcall.append (hopen.append (Crosses.append h.1 htrue))
    | false =>
      simpa [IsPlainCode, Code.plain, runsFrom, hcomputed, joint] using
        hcall.append (.opening ((Crosses.shift h.1 1).append hfalse))
  · apply plain_braces
    apply plain_joinWith (plain_fixed (by decide))
    intro text htext
    obtain ⟨p, hp, rfl⟩ := List.mem_map.1 htext
    exact h p hp

/-! ## All code -/

mutual

theorem plain_generate : ∀ (e : Node) {code : Code}, generate e = .ok code →
    e.isSpelled = true → IsPlainCode code.text
  | .identifier name, code, h, hs => by
    obtain rfl := Except.ok.inj h
    exact plain_word (isWord_of_isName hs)
  | .literal l value, code, h, hs => by
    obtain rfl := Except.ok.inj h
    exact plain_constant value.constant
  | .field l object name, code, h, hs => by
    rw [Node.isSpelled, Bool.and_eq_true] at hs
    obtain ⟨c, hc, rfl⟩ := generate_field_ok h
    have hobject := plain_wrap (plain_generate object hc hs.1) object
    -- The length of a known text is written as a number.
    rcases fieldCode_cases c (wrap c.text object) name.text with ⟨x, hfold⟩ | ⟨-, htext⟩
    · rw [hfold]
      exact plain_number x
    · rw [htext]
      exact plain_append (plain_append hobject (plain_fixed (by decide)))
        (plain_word hs.2)
  | .index l object index, code, h, hs => by
    rw [Node.isSpelled, Bool.and_eq_true] at hs
    obtain ⟨c, i, hc, hi, rfl⟩ := generate_index_ok h
    rw [Code.plain, String.append_assoc, String.append_assoc]
    refine plain_append (plain_wrap (plain_generate object hc hs.1) object) ?_
    rw [← String.append_assoc]
    exact plain_enclosed (by decide) (by decide) (plain_generate index hi hs.2)
  | .unary l op a, code, h, hs => by
    rw [Node.isSpelled] at hs
    obtain ⟨hop, c, hc, ⟨_, f, _, _, rfl⟩ | ⟨-, rfl⟩⟩ := generate_unary_ok h
    · exact plain_constant f
    · have hall : ∀ op ∈ admittedUnary, op.text.toList.all isPlainChar = true := by decide
      exact plain_joinOperator .nil (plain_fixed (hall op hop))
        (plain_wrap (plain_generate a hc hs) a)
  | .binary l op a b, code, h, hs => by
    rw [Node.isSpelled, Bool.and_eq_true] at hs
    obtain ⟨hop, c, d, hc, hd, ⟨_, _, f, _, _, _, rfl⟩ | ⟨-, rfl⟩⟩ := generate_binary_ok h
    · exact plain_constant f
    · have hadmitted : (Infix.binary op).IsAdmitted := hop
      have hoperator := plain_operator hadmitted
      rw [Infix.text] at hoperator
      exact plain_joinOperator (plain_wrap (plain_generate a hc hs.1) a) hoperator
        (plain_wrap (plain_generate b hd hs.2) b)
  | .logical l op a b, code, h, hs => by
    rw [Node.isSpelled, Bool.and_eq_true] at hs
    obtain ⟨hop, c, d, hc, hd, ⟨_, _, f, _, _, _, rfl⟩ | ⟨-, rfl⟩⟩ := generate_logical_ok h
    · exact plain_constant f
    · have hadmitted : (Infix.logical op).IsAdmitted := hop
      have hoperator := plain_operator hadmitted
      rw [Infix.text] at hoperator
      exact plain_append (plain_append (plain_wrap (plain_generate a hc hs.1) a)
        hoperator) (plain_wrap (plain_generate b hd hs.2) b)
  | .conditional l t x y, code, h, hs => by
    rw [Node.isSpelled, Bool.and_eq_true, Bool.and_eq_true] at hs
    obtain ⟨c, d, e, hc, hd, he, ⟨v, -, rfl⟩ | ⟨-, rfl⟩⟩ := generate_conditional_ok h
    · split
      · exact plain_generate x hd hs.1.2
      · exact plain_generate y he hs.2
    · have hmark : ∀ s : String, s.toList.all isPlainChar = true → IsPlainCode s := fun s h =>
        plain_fixed h
      exact plain_append (plain_append (plain_append (plain_append
        (plain_wrap (plain_generate t hc hs.1.1) t) (hmark "?" (by decide)))
        (plain_wrap (plain_generate x hd hs.1.2) x)) (hmark ":" (by decide)))
        (plain_wrap (plain_generate y he hs.2) y)
  | .call l f args, code, h, hs => by
    rw [Node.isSpelled, Bool.and_eq_true] at hs
    obtain ⟨c, texts, hc, ht, rfl⟩ := generate_call_ok h
    rw [Code.plain, String.append_assoc, String.append_assoc]
    refine plain_append (plain_wrap (plain_generate f hc hs.1) f) ?_
    rw [← String.append_assoc]
    exact plain_enclosed (by decide) (by decide)
      (plain_joinWith (plain_fixed (by decide)) (plain_generateList args ht hs.2))
  | .template l parts, code, h, hs => by
    rw [Node.isSpelled] at hs
    obtain ⟨texts, ht, ⟨-, rfl⟩ | ⟨-, rfl⟩⟩ := generate_template_ok h
    · exact plain_constant (.string "")
    · exact plain_enclosed (by decide) (by decide)
        (plain_joinWith (plain_fixed (by decide)) (plain_generateParts parts ht hs))
  | .array l es, code, h, hs => by
    rw [Node.isSpelled] at hs
    obtain ⟨texts, ht, rfl⟩ := generate_array_ok h
    exact plain_enclosed (by decide) (by decide)
      (plain_joinWith (plain_fixed (by decide)) (plain_generateList es ht hs))
  | .object l ps, code, h, hs => by
    rw [Node.isSpelled] at hs
    obtain ⟨codes, hc, rfl⟩ := generate_object_ok h
    exact plain_object (plain_generateProperties ps hc hs)

theorem plain_generateList : ∀ (es : List Node) {texts : List String},
    generateList es = .ok texts → areSpelled es = true → ∀ text ∈ texts, IsPlainCode text
  | [], texts, h, _ => by
    obtain rfl := Except.ok.inj h
    simp
  | e :: es, texts, h, hs => by
    rw [areSpelled, Bool.and_eq_true] at hs
    simp only [generateList, bind_eq_ok, pure_eq_ok, Except.ok.injEq] at h
    obtain ⟨code, hcode, rest, hrest, rfl⟩ := h
    rw [List.forall_mem_cons]
    exact ⟨plain_generate e hcode hs.1, plain_generateList es hrest hs.2⟩

theorem plain_generateParts : ∀ (es : List Node) {texts : List String},
    generateParts es = .ok texts → areSpelled es = true → ∀ text ∈ texts, IsPlainCode text
  | [], texts, h, _ => by
    obtain rfl := Except.ok.inj h
    simp
  | e :: es, texts, h, hs => by
    rw [areSpelled, Bool.and_eq_true] at hs
    simp only [generateParts, bind_eq_ok, pure_eq_ok, Except.ok.injEq] at h
    obtain ⟨code, hcode, rest, hrest, rfl⟩ := h
    rw [List.forall_mem_cons]
    exact ⟨plain_wrap (plain_generate e hcode hs.1) e, plain_generateParts es hrest hs.2⟩

theorem plain_generateProperties : ∀ (ps : List Property) {codes : List PropertyCode},
    generateProperties ps = .ok codes → propertiesSpelled ps = true →
    ∀ code ∈ codes, IsPlainCode code.text
  | [], codes, h, _ => by
    obtain rfl := Except.ok.inj h
    simp
  | p :: ps, codes, h, hs => by
    rw [propertiesSpelled, Bool.and_eq_true] at hs
    simp only [generateProperties, bind_eq_ok, pure_eq_ok, Except.ok.injEq] at h
    obtain ⟨code, hcode, rest, hrest, rfl⟩ := h
    rw [List.forall_mem_cons]
    exact ⟨plain_generateProperty p hcode hs.1, plain_generateProperties ps hrest hs.2⟩

theorem plain_generateProperty : ∀ (p : Property) {code : PropertyCode},
    generateProperty p = .ok code → p.isSpelled = true → IsPlainCode code.text
  | .shorthand name, code, h, hs => by
    obtain rfl := Except.ok.inj h
    have hname := plain_word (isWord_of_isName hs)
    exact plain_append (plain_append hname (plain_fixed (by decide))) hname
  | .keyed l key value, code, h, hs => by
    rw [Property.isSpelled, Bool.and_eq_true] at hs
    simp only [generateProperty, bind_eq_ok, pure_eq_ok, Except.ok.injEq] at h
    obtain ⟨c, hc, rfl⟩ := h
    exact plain_append (plain_append (plain_key hs.1) (plain_fixed (by decide)))
      (plain_generate value hc hs.2)
  | .computed l key value, code, h, hs => by
    rw [Property.isSpelled, Bool.and_eq_true] at hs
    simp only [generateProperty, bind_eq_ok, pure_eq_ok, Except.ok.injEq] at h
    obtain ⟨c, hc, k, hk, rfl⟩ := h
    have hpair := plain_append (plain_append (plain_append
      (plain_fixed (s := "k:") (by decide)) (plain_generate key hk hs.1))
      (plain_fixed (s := ",v:") (by decide))) (plain_generate value hc hs.2)
    have htext : "\x7bk:" ++ k.text ++ ",v:" ++ c.text ++ "\x7d" =
        "\x7b" ++ ("k:" ++ k.text ++ ",v:" ++ c.text) ++ "\x7d" := by
      rw [← String.toList_inj]
      simp
    rw [htext]
    exact plain_braces hpair

end

theorem plain_applyFilters {fs : List Filter} {code result : String}
    (h : applyFilters code fs = .ok result) (hspelled : ∀ f ∈ fs, f.isSpelled = true)
    (hmarks : ∀ f ∈ fs, f.isUnmarked) (hcode : IsPlainCode code) :
    IsPlainCode result := by
  induction fs generalizing code with
  | nil =>
    obtain rfl := Except.ok.inj h
    exact hcode
  | cons f fs ih =>
    rw [List.forall_mem_cons] at hspelled hmarks
    obtain ⟨args, hargs, hrest⟩ := applyFilters_cons h hmarks.1
    have hf := hspelled.1
    rw [Filter.isSpelled, Bool.and_eq_true] at hf
    apply ih hrest hspelled.2 hmarks.2
    refine plain_append hcode (plain_append (plain_append (plain_fixed (by decide))
      (plain_word (isWord_of_isName hf.1))) ?_)
    split
    · exact .nil
    · exact plain_enclosed (by decide) (by decide)
        (plain_joinWith (plain_fixed (by decide)) (plain_generateList _ hargs hf.2))

end VueToSan.Expr

namespace VueToSan.San

open VueToSan.Text VueToSan.Transform

/-! ## Interpolations -/

theorem interpolate_toList (code : String) : (interpolate code).toList =
    '{' :: '{' :: ((' ' :: (code.toList ++ [' '])) ++ ['}', '}']) := by
  simp [interpolate]

theorem Crosses.spanInterpolation_closed {cs : List Char} (h : Crosses 0 cs 0) (rest : List Char) :
    spanInterpolation 0 none ((' ' :: (cs ++ [' '])) ++ '}' :: '}' :: rest) =
      some (' ' :: (cs ++ [' ']), rest) := by
  have hspace : Crosses 0 [' '] 0 := .plain (by decide) .nil
  have hspaced : Crosses 0 (' ' :: (cs ++ [' '])) 0 := .plain (by decide) (h.append hspace)
  rw [hspaced.interpolation, spanInterpolation]
  simp

theorem segmentsFrom_skip (span : Span) (seen cs rest : List Char) :
    segmentsFrom span cs.length seen (cs ++ rest) = segmentsFrom span 0 seen rest := by
  induction cs with
  | nil => rfl
  | cons c cs ih => rw [List.length_cons, List.cons_append, segmentsFrom, ih]

theorem readText_closed {code : String}
    (h : spanInterpolation 0 none ((' ' :: (code.toList ++ [' '])) ++ ['}', '}']) =
      some (' ' :: (code.toList ++ [' ']), [])) (span : Span) :
    readText (interpolate code).toList span =
      (readExpr code.toList span).map fun e => ⟨.expr e, some (interpolate code)⟩ := by
  have htext := interpolate_toList code
  generalize hinside : ' ' :: (code.toList ++ [' ']) = inside at h htext
  have hexpr : readExpr inside span = readExpr code.toList span := by
    rw [readExpr, readExpr, ← hinside, trim_between_spaces]
  have hskip : segmentsFrom span (inside.length + 2) [] (inside ++ ['}', '}']) = .ok [] := by
    have hskip := segmentsFrom_skip span [] (inside ++ ['}', '}']) []
    rw [List.append_nil, List.length_append] at hskip
    exact hskip
  rw [readText, htext, segmentsFrom, h]
  simp only [hexpr, hskip]
  rw [← htext, String.ofList_toList]
  cases readExpr code.toList span with
  | ok e => rfl
  | error e => rfl

/-- An interpolation around plain code is the expression of the code, or cannot be read just as
the code cannot. -/
theorem readText_interpolate {code : String} (h : Expr.IsPlainCode code) (span : Span) :
    readText (interpolate code).toList span =
      (readExpr code.toList span).map fun e => ⟨.expr e, some (interpolate code)⟩ :=
  readText_closed (Crosses.spanInterpolation_closed h []) span

end VueToSan.San

namespace VueToSan.Expr

open VueToSan.Text VueToSan.San VueToSan.Transform

theorem plain_compile {source : String} {compiled : Compiled}
    (h : compile source = .ok compiled)
    (hmarks : ∀ e, parse source = .ok e → ∀ f ∈ e.filters, f.isUnmarked) :
    IsPlainCode compiled.text := by
  cases hblank : allBlank source with
  | true =>
    rw [compile, if_pos hblank] at h
    obtain rfl := Except.ok.inj h
    exact .nil
  | false =>
    obtain ⟨e, he⟩ := exists_parsed hblank h
    obtain ⟨hspelled, hfilters⟩ := parse_isSpelled he
    obtain ⟨base, hbase, happly⟩ := compile_ok he h
    exact plain_applyFilters happly hfilters (hmarks e he)
      (plain_generate e.expression hbase hspelled)

/-- The interpolation of the code of a source ends at the double brace that is written behind the
code, whatever follows. Read as a text it is one expression, that of the code, and it is an error
just when the code is. -/
theorem interpolation_delimited {source : String} {compiled : Compiled}
    (h : compile source = .ok compiled)
    (hmarks : ∀ e, parse source = .ok e → ∀ f ∈ e.filters, f.isUnmarked) :
    (∀ rest, spanInterpolation 0 none
      ((' ' :: (compiled.text.toList ++ [' '])) ++ '}' :: '}' :: rest) =
        some (' ' :: (compiled.text.toList ++ [' ']), rest)) ∧
      ∀ span, readText (interpolate compiled.text).toList span =
        (readExpr compiled.text.toList span).map fun e =>
          ⟨.expr e, some (interpolate compiled.text)⟩ := by
  have hplain := plain_compile h hmarks
  exact ⟨Crosses.spanInterpolation_closed hplain, readText_interpolate hplain⟩

def sampleBraces : String := "\x7ba: \x7b[k]: 'it\\'s \x7d\x7d'\x7d\x7d | f('\x7b\x7b')"

def sampleBracesCode : String :=
  "\x7ba:_ex(_ocp([\x7bk:k,v:'it\\'s \x7d\x7d'\x7d]))\x7d | f('\x7b\x7b')"

theorem sampleBraces_delimited :
    ∃ e compiled, parse sampleBraces = .ok e ∧ (∀ f ∈ e.filters, f.isUnmarked) ∧
      compile sampleBraces = .ok compiled ∧ compiled.text = sampleBracesCode ∧
      spanInterpolation 0 none ((' ' :: (sampleBracesCode.toList ++ [' '])) ++ "\x7d\x7d!".toList) =
        some (' ' :: (sampleBracesCode.toList ++ [' ']), ['!']) := by
  have hparse : (parse sampleBraces).toOption.any
      (fun e => e.filters.all fun f => decide f.isUnmarked) = true := by
    decide +kernel
  have hcompile : (compile sampleBraces).toOption.map (·.text) = some sampleBracesCode := by
    decide +kernel
  obtain ⟨e, he, hmarks⟩ := (Option.any_eq_true _ _).1 hparse
  obtain ⟨compiled, hcompiled, htext⟩ := Option.map_eq_some_iff.1 hcompile
  rw [toOption_eq_some] at he hcompiled
  have hmarks : ∀ f ∈ e.filters, f.isUnmarked := fun f hf =>
    of_decide_eq_true (List.all_eq_true.1 hmarks f hf)
  refine ⟨e, compiled, he, hmarks, hcompiled, htext, ?_⟩
  rw [← htext]
  refine (interpolation_delimited hcompiled fun other hother => ?_).1 ['!']
  obtain rfl := Except.ok.inj (he.symm.trans hother)
  exact hmarks

end VueToSan.Expr
