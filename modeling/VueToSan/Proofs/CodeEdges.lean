import VueToSan.Proofs.CodeRoundTrip

/-!
# The edges of code

Code starts and ends with a character that is no blank, so that trimming does not change it, and no
colon follows the letters at its start, so that nothing of it is taken for a modifier in front of
code.
-/

namespace VueToSan.Text

def EndsVisible (cs : List Char) : Prop := ∃ c, cs.getLast? = some c ∧ isBlank c = false

theorem EndsVisible.behind {ds : List Char} (h : EndsVisible ds) (cs : List Char) :
    EndsVisible (cs ++ ds) := by
  obtain ⟨c, hc, hblank⟩ := h
  exact ⟨c, by rw [List.getLast?_append, hc, Option.some_or], hblank⟩

theorem trim_between_spaces (cs : List Char) : trim (' ' :: (cs ++ [' '])) = trim cs := by
  have hspace : isBlank ' ' = true := by decide
  have hstart : trimStart (' ' :: (cs ++ [' '])) = trimStart (cs ++ [' ']) :=
    List.dropWhile_cons_of_pos hspace
  have hend : ∀ ds, trimEnd (ds ++ [' ']) = trimEnd ds := by
    intro ds
    rw [trimEnd, dropEndWhile, List.reverse_append, List.reverse_singleton, List.singleton_append,
      List.dropWhile_cons_of_pos hspace]
    rfl
  rw [trim, hstart, trimStart, List.dropWhile_append]
  split
  · rename_i hblank
    rw [List.dropWhile_cons_of_pos hspace, trim, trimStart, List.isEmpty_iff.1 hblank]
    rfl
  · exact hend _

/-- A text that blanks around it are told apart from, with no letters and colon at its start. -/
structure Framed (cs : List Char) : Prop where
  first : ∃ c, cs.head? = some c ∧ isBlank c = false
  last : EndsVisible cs
  letters : (cs.dropWhile isLetter).head? ≠ some ':'

def isBreak (c : Char) : Bool := !isLetter c && c != ':'

theorem head?_dropWhile_letters {cs : List Char} (h : cs.head?.any isBreak = true) :
    (cs.dropWhile isLetter).head? ≠ some ':' := by
  obtain ⟨c, hc, hbreak⟩ := (Option.any_eq_true _ _).1 h
  obtain ⟨rest, rfl⟩ := List.head?_eq_some_iff.1 hc
  rw [isBreak, Bool.and_eq_true, Bool.not_eq_true', bne_iff_ne] at hbreak
  rw [List.dropWhile_cons_of_neg (by simp [hbreak.1])]
  simpa using hbreak.2

namespace Framed

variable {cs ds : List Char}

theorem ne_nil (h : Framed cs) : cs ≠ [] := by
  rintro rfl
  obtain ⟨c, hc, -⟩ := h.first
  cases hc

theorem of_visible (hne : cs ≠ []) (h : ∀ c ∈ cs, isBlank c = false ∧ c ≠ ':') : Framed cs where
  first := ⟨cs.head hne, List.head?_eq_some_head hne, (h _ (List.head_mem hne)).1⟩
  last := ⟨cs.getLast hne, List.getLast?_eq_some_getLast hne, (h _ (List.getLast_mem hne)).1⟩
  letters hcolon := by
    have hmem := (List.dropWhile_sublist isLetter).subset (List.mem_of_head? hcolon)
    exact (h _ hmem).2 rfl

theorem marked {m : Char} (hblank : isBlank m = false) (hbreak : isBreak m = true)
    (hlast : EndsVisible ds) : Framed (m :: ds) where
  first := ⟨m, rfl, hblank⟩
  last := hlast.behind [m]
  letters := head?_dropWhile_letters hbreak

theorem append (h : Framed cs) (hbreak : ds.head?.any isBreak = true) (hlast : EndsVisible ds) :
    Framed (cs ++ ds) where
  first := by
    obtain ⟨c, hc, hblank⟩ := h.first
    exact ⟨c, by rw [List.head?_append, hc, Option.some_or], hblank⟩
  last := hlast.behind cs
  letters := by
    rw [List.dropWhile_append]
    split
    · exact head?_dropWhile_letters hbreak
    · rename_i hne
      rw [List.isEmpty_iff] at hne
      obtain ⟨c, rest, hrest⟩ := List.exists_cons_of_ne_nil hne
      have hletters := h.letters
      rw [hrest] at hletters ⊢
      exact hletters

theorem first_visible (h : Framed cs) (ds : List Char) :
    ∀ c ∈ (cs ++ ds).head?, isBlank c = false := by
  obtain ⟨first, hfirst, hblank⟩ := h.first
  intro c hc
  rw [List.head?_append, hfirst, Option.some_or] at hc
  exact Option.some.inj hc ▸ hblank

theorem last_visible (h : Framed cs) : ∀ c ∈ cs.getLast?, isBlank c = false := by
  obtain ⟨last, hlast, hblank⟩ := h.last
  intro c hc
  exact Option.some.inj (hlast.symm.trans hc) ▸ hblank

theorem trimStart_append (h : Framed cs) (ds : List Char) : trimStart (cs ++ ds) = cs ++ ds :=
  dropWhile_append_stop (List.forall_mem_nil _) (h.first_visible ds)

theorem trimEnd_eq (h : Framed cs) : trimEnd cs = cs := by
  obtain ⟨c, hc, hblank⟩ := h.last
  rw [List.getLast?_eq_head?_reverse] at hc
  obtain ⟨front, hfront⟩ := List.head?_eq_some_iff.1 hc
  rw [trimEnd, dropEndWhile, hfront, List.dropWhile_cons_of_neg (by simp [hblank]), ← hfront,
    List.reverse_reverse]

theorem trim_eq (h : Framed cs) : trim cs = cs := by
  have hstart := h.trimStart_append []
  rw [List.append_nil] at hstart
  rw [trim, hstart, h.trimEnd_eq]

theorem trim_spaced (h : Framed cs) : trim (' ' :: (cs ++ [' '])) = cs := by
  rw [trim_between_spaces, h.trim_eq]

end Framed

end VueToSan.Text

namespace VueToSan.Number

open VueToSan.Text

def isNumberChar (c : Char) : Bool := isLetter c || isDigit c || c == '.' || c == '+' || c == '-'

theorem visible_of_isNumberChar {c : Char} (h : isNumberChar c = true) :
    isBlank c = false ∧ c ≠ ':' := by
  refine ⟨?_, by rintro rfl; exact absurd h (by decide)⟩
  simp only [isNumberChar, Bool.or_eq_true, isLetter_iff, isDigit_iff, beq_iff_eq] at h
  rcases h with (((h | h) | rfl) | rfl) | rfl
  · exact isBlank_of_visible (by omega)
  · exact isBlank_of_visible (by omega)
  all_goals decide

theorem isNumberChar_of_isDigit {c : Char} (h : isDigit c = true) : isNumberChar c = true := by
  simp [isNumberChar, h]

variable {f : Layout} {d : Decimal}

theorem isNumberChar_plain (hf : f.wholeEnd = []) (hd : ∀ c ∈ d.digits, isDigit c = true) :
    ∀ c ∈ f.plain d, isNumberChar c = true := by
  have hdigits : ∀ c ∈ d.digits, isNumberChar c = true := fun c hc =>
    isNumberChar_of_isDigit (hd c hc)
  have hzeros : ∀ n, ∀ c ∈ zeros n, isNumberChar c = true := fun n c hc =>
    isNumberChar_of_isDigit (isDigit_zeros n c hc)
  have hpoint : isNumberChar '.' = true := by decide
  have hzero : isNumberChar '0' = true := by decide
  simp only [Layout.plain]
  split_ifs
  · rw [hf, List.append_nil]
    exact List.forall_mem_append.2 ⟨hdigits, hzeros _⟩
  · refine List.forall_mem_append.2 ⟨fun c hc => hdigits c (List.mem_of_mem_take hc), ?_⟩
    exact List.forall_mem_cons.2 ⟨hpoint, fun c hc => hdigits c (List.mem_of_mem_drop hc)⟩
  · exact List.forall_mem_cons.2 ⟨hzero, List.forall_mem_cons.2 ⟨hpoint,
      List.forall_mem_append.2 ⟨hzeros _, hdigits⟩⟩⟩

theorem isNumberChar_scientific (hd : ∀ c ∈ d.digits, isDigit c = true) :
    ∀ c ∈ scientific d, isNumberChar c = true := by
  have hdigits : ∀ c ∈ d.digits, isNumberChar c = true := fun c hc =>
    isNumberChar_of_isDigit (hd c hc)
  have hexponent : ∀ c ∈ 'e' :: (if d.exponent < 0 then '-' else '+') ::
      Nat.toDigits 10 d.exponent.natAbs, isNumberChar c = true := by
    refine List.forall_mem_cons.2 ⟨by decide, List.forall_mem_cons.2 ⟨?_, fun c hc => ?_⟩⟩
    · split <;> decide
    · exact isNumberChar_of_isDigit (isDigit_toDigits _ c hc)
  obtain ⟨digits, exponent⟩ := d
  match digits, hdigits with
  | first :: second :: rest, hdigits =>
    rw [List.forall_mem_cons] at hdigits
    refine List.forall_mem_cons.2 ⟨hdigits.1, List.forall_mem_cons.2 ⟨by decide, ?_⟩⟩
    exact List.forall_mem_append.2 ⟨hdigits.2, hexponent⟩
  | [], hdigits => exact List.forall_mem_append.2 ⟨hdigits, hexponent⟩
  | [_], hdigits => exact List.forall_mem_append.2 ⟨hdigits, hexponent⟩

theorem isNumberChar_signed {cs : List Char} (negative : Bool)
    (h : ∀ c ∈ cs, isNumberChar c = true) : ∀ c ∈ signed negative cs, isNumberChar c = true := by
  cases negative with
  | false => exact h
  | true => exact List.forall_mem_cons.2 ⟨by decide, h⟩

end VueToSan.Number

namespace VueToSan.Expr

open VueToSan.Text VueToSan.Number

theorem isNumberChar_format (x : Float) : ∀ c ∈ (formatNumber x).toList, isNumberChar c = true := by
  rw [formatNumber, Layout.write, String.toList_ofList]
  cases hx : decode x with
  | nan => exact forall_of_all (by decide)
  | infinite negative => exact isNumberChar_signed negative (forall_of_all (by decide))
  | finite negative m e =>
    dsimp only
    split_ifs with hm
    · exact isNumberChar_signed _ (forall_of_all (by decide))
    · obtain ⟨-, hdouble, -⟩ := decode_finite hx
      obtain ⟨y, -, hdenotes⟩ := shortest_denotes (hdouble (by omega)) numberLayout.tie
      apply isNumberChar_signed
      unfold Layout.decimal
      split
      · exact isNumberChar_plain rfl hdenotes.digits
      · exact isNumberChar_scientific hdenotes.digits

theorem framed_number (x : Float) : Framed (formatNumber x).toList := by
  obtain ⟨⟨c, tail, hcs, -⟩, -⟩ := numberNode_operand x (p := .free) (by simp)
  refine .of_visible (by rw [hcs]; simp) fun c hc => ?_
  exact visible_of_isNumberChar (isNumberChar_format x c hc)

theorem framed_quote (s : String) : Framed (quote s).toList := by
  rw [quote, String.toList_ofList]
  exact .marked (by decide) (by decide) (EndsVisible.behind ⟨_, rfl, by decide⟩ _)

theorem visible_of_isIdentPart {c : Char} (h : isIdentPart c = true) :
    isBlank c = false ∧ c ≠ ':' := by
  refine ⟨?_, by rintro rfl; exact absurd h (by decide)⟩
  rw [isIdentPart, Bool.or_eq_true] at h
  rcases h with h | h
  · exact isBlank_of_visible (visible_of_isIdentStart h)
  · rw [isDigit_iff] at h
    exact isBlank_of_visible (by omega)

theorem framed_word {name : String} (h : isWord name = true) : Framed name.toList := by
  obtain ⟨c, cs, hcs, hstart, hparts⟩ := exists_of_isWord h
  rw [hcs]
  refine .of_visible (by simp) (List.forall_mem_cons.2 ⟨?_, fun d hd => ?_⟩)
  · exact visible_of_isIdentPart (by rw [isIdentPart, hstart, Bool.true_or])
  · exact visible_of_isIdentPart (hparts d hd)

theorem framed_constant (v : Constant) : Framed v.emit.toList := by
  cases v with
  | number x => exact framed_number x
  | string s => exact framed_quote s
  | boolean b => cases b <;> exact framed_word (by decide)
  | null => exact framed_word (by decide)
  | undefined => exact framed_word (by decide)

/-! ## Code of nodes -/

theorem framed_enclosed {o c : String}
    (ho : ∃ m, o.toList = [m] ∧ isBlank m = false ∧ isBreak m = true) (hc : EndsVisible c.toList)
    (inner : String) : Framed (o ++ inner ++ c).toList := by
  obtain ⟨m, hm, hblank, hbreak⟩ := ho
  rw [String.toList_append, String.toList_append, hm, List.append_assoc]
  exact .marked hblank hbreak (hc.behind _)

theorem framed_joined {left right mark : String} (hleft : Framed left.toList)
    (hmark : mark.toList.head?.any isBreak = true) (hright : EndsVisible right.toList) :
    Framed (left ++ mark ++ right).toList := by
  rw [String.toList_append, String.toList_append, List.append_assoc]
  refine hleft.append ?_ (hright.behind _)
  obtain ⟨m, hm, hbreak⟩ := (Option.any_eq_true _ _).1 hmark
  rw [List.head?_append, hm, Option.some_or, Option.any_some, hbreak]

theorem endsVisible_behind {right : String} (h : EndsVisible right.toList) (left : String) :
    EndsVisible (left ++ right).toList := by
  rw [String.toList_append]
  exact h.behind _

theorem framed_wrap {text : String} (h : Framed text.toList) (e : Node) :
    Framed (wrap text e).toList := by
  have hparens : Framed ("(" ++ text ++ ")").toList :=
    framed_enclosed ⟨_, rfl, by decide, by decide⟩ ⟨_, rfl, by decide⟩ text
  unfold wrap
  split
  · split
    · exact h
    · exact hparens
  · exact hparens
  · exact hparens
  · exact h

theorem framed_field {c : Code} {wrapped name : String} (h : Framed wrapped.toList)
    (hname : isWord name = true) : Framed (fieldCode c wrapped name).text.toList := by
  rcases fieldCode_cases c wrapped name with ⟨x, hfold⟩ | ⟨-, htext⟩
  · rw [hfold]
    exact framed_number x
  · rw [htext]
    exact framed_joined h (by decide) (framed_word hname).last

theorem endsVisible_runsFrom (before : Option Bool) (ps : List PropertyCode) :
    EndsVisible (runsFrom before ps).toList := by
  induction ps generalizing before with
  | nil =>
    rw [runsFrom]
    split <;> exact ⟨_, rfl, by decide⟩
  | cons p ps ih => exact endsVisible_behind (ih _) _

theorem framed_object (ps : List PropertyCode) : Framed (objectCode ps).text.toList := by
  unfold objectCode
  split
  · rw [Code.plain, String.toList_append]
    exact .marked (by decide) (by decide) ((endsVisible_runsFrom none ps).behind _)
  · exact framed_enclosed ⟨_, rfl, by decide, by decide⟩ ⟨_, rfl, by decide⟩ _

theorem framed_unary {op : UnaryOp} {text : String} (hop : op ∈ admittedUnary)
    (h : Framed text.toList) : Framed (joinOperator "" op.text text).toList := by
  have hmark : ∃ m, op.text.toList = [m] ∧ isBlank m = false ∧ isBreak m = true := by
    simp only [admittedUnary, List.mem_cons, List.not_mem_nil, or_false] at hop
    rcases hop with rfl | rfl | rfl <;> exact ⟨_, rfl, by decide, by decide⟩
  obtain ⟨m, hm, hblank, hbreak⟩ := hmark
  rcases joinOperator_cases "" op.text text with htext | htext
  · rw [htext, String.empty_append, String.toList_append, hm]
    exact .marked hblank hbreak h.last
  · rw [htext, String.empty_append, String.toList_append, hm]
    exact .marked hblank hbreak (endsVisible_behind h.last " ")

theorem isBreak_operator (op : Infix) (h : op.IsAdmitted) :
    op.text.toList.head?.any isBreak = true := by
  cases op with
  | binary op =>
    have hall : ∀ op ∈ admittedBinary, op.text.toList.head?.any isBreak = true := by decide
    exact hall op h
  | logical op =>
    have hall : ∀ op ∈ admittedLogical, op.text.toList.head?.any isBreak = true := by decide
    exact hall op h

theorem framed_joinOperator {left right : String} (op : Infix) (hop : op.IsAdmitted)
    (hleft : Framed left.toList) (hright : Framed right.toList) :
    Framed (joinOperator left op.text right).toList := by
  rcases joinOperator_cases left op.text right with htext | htext
  · rw [htext]
    exact framed_joined hleft (isBreak_operator op hop) hright.last
  · rw [htext]
    exact framed_joined hleft (isBreak_operator op hop) (endsVisible_behind hright.last " ")

theorem framed_generate : ∀ (e : Node) {code : Code}, generate e = .ok code →
    e.isSpelled = true → Framed code.text.toList
  | .identifier name, code, h, hs => by
    obtain rfl := Except.ok.inj h
    exact framed_word (isWord_of_isName hs)
  | .literal l value, code, h, hs => by
    obtain rfl := Except.ok.inj h
    exact framed_constant value.constant
  | .field l object name, code, h, hs => by
    rw [Node.isSpelled, Bool.and_eq_true] at hs
    obtain ⟨c, hc, rfl⟩ := generate_field_ok h
    exact framed_field (framed_wrap (framed_generate object hc hs.1) object) hs.2
  | .index l object index, code, h, hs => by
    rw [Node.isSpelled, Bool.and_eq_true] at hs
    obtain ⟨c, i, hc, hi, rfl⟩ := generate_index_ok h
    rw [Code.plain, String.append_assoc]
    exact framed_joined (framed_wrap (framed_generate object hc hs.1) object) (by decide)
      (endsVisible_behind ⟨_, rfl, by decide⟩ _)
  | .unary l op a, code, h, hs => by
    rw [Node.isSpelled] at hs
    obtain ⟨hop, c, hc, ⟨_, f, _, _, rfl⟩ | ⟨-, rfl⟩⟩ := generate_unary_ok h
    · exact framed_constant f
    · exact framed_unary hop (framed_wrap (framed_generate a hc hs) a)
  | .binary l op a b, code, h, hs => by
    rw [Node.isSpelled, Bool.and_eq_true] at hs
    obtain ⟨hop, c, d, hc, hd, ⟨_, _, f, _, _, _, rfl⟩ | ⟨-, rfl⟩⟩ := generate_binary_ok h
    · exact framed_constant f
    · exact framed_joinOperator (.binary op) hop
        (framed_wrap (framed_generate a hc hs.1) a) (framed_wrap (framed_generate b hd hs.2) b)
  | .logical l op a b, code, h, hs => by
    rw [Node.isSpelled, Bool.and_eq_true] at hs
    obtain ⟨hop, c, d, hc, hd, ⟨_, _, f, _, _, _, rfl⟩ | ⟨-, rfl⟩⟩ := generate_logical_ok h
    · exact framed_constant f
    · exact framed_joined (framed_wrap (framed_generate a hc hs.1) a)
        (isBreak_operator (.logical op) hop) (framed_wrap (framed_generate b hd hs.2) b).last
  | .conditional l t x y, code, h, hs => by
    rw [Node.isSpelled, Bool.and_eq_true, Bool.and_eq_true] at hs
    obtain ⟨c, d, e, hc, hd, he, ⟨v, -, rfl⟩ | ⟨-, rfl⟩⟩ := generate_conditional_ok h
    · split
      · exact framed_generate x hd hs.1.2
      · exact framed_generate y he hs.2
    · have ht := framed_wrap (framed_generate t hc hs.1.1) t
      have hy := framed_wrap (framed_generate y he hs.2) y
      rw [Code.plain, String.append_assoc, String.append_assoc]
      exact framed_joined ht (by decide) (endsVisible_behind (endsVisible_behind hy.last _) _)
  | .call l f args, code, h, hs => by
    rw [Node.isSpelled, Bool.and_eq_true] at hs
    obtain ⟨c, texts, hc, -, rfl⟩ := generate_call_ok h
    rw [Code.plain, String.append_assoc]
    exact framed_joined (framed_wrap (framed_generate f hc hs.1) f) (by decide)
      (endsVisible_behind ⟨_, rfl, by decide⟩ _)
  | .template l parts, code, h, hs => by
    obtain ⟨texts, -, ⟨-, rfl⟩ | ⟨-, rfl⟩⟩ := generate_template_ok h
    · exact framed_constant (.string "")
    · exact framed_enclosed ⟨_, rfl, by decide, by decide⟩ ⟨_, rfl, by decide⟩ _
  | .array l es, code, h, hs => by
    obtain ⟨texts, -, rfl⟩ := generate_array_ok h
    exact framed_enclosed ⟨_, rfl, by decide, by decide⟩ ⟨_, rfl, by decide⟩ _
  | .object l ps, code, h, hs => by
    obtain ⟨codes, -, rfl⟩ := generate_object_ok h
    exact framed_object codes

/-! ## Code of sources -/

theorem endsVisible_tail {c d : Char} {cs : List Char} (h : EndsVisible (c :: d :: cs)) :
    EndsVisible (d :: cs) := by
  obtain ⟨x, hx, hblank⟩ := h
  exact ⟨x, by rwa [List.getLast?_cons_cons] at hx, hblank⟩

theorem endsVisible_replaceFrom {word new cs : List Char} (hnew : EndsVisible new) (skip : Nat)
    (h : EndsVisible cs) :
    (skip ≠ 0 ∧ replaceFrom word new skip cs = []) ∨
      EndsVisible (replaceFrom word new skip cs) := by
  induction cs generalizing skip with
  | nil =>
    obtain ⟨c, hc, -⟩ := h
    cases hc
  | cons c cs ih =>
    -- The hypothesis of the induction is empty for the last character, which has no visible rest.
    have hrest : ∀ n, replaceFrom word new n cs = [] ∧ (n ≠ 0 ∨ cs = []) ∨
        EndsVisible (replaceFrom word new n cs) := by
      intro n
      cases cs with
      | nil => exact .inl ⟨by rw [replaceFrom], .inr rfl⟩
      | cons d cs =>
        exact (ih n (endsVisible_tail h)).imp (fun hskip => ⟨hskip.2, .inl hskip.1⟩) id
    cases skip with
    | succ n =>
      rw [replaceFrom]
      exact (hrest n).imp (fun hnil => ⟨by simp, hnil.1⟩) id
    | zero =>
      right
      rw [replaceFrom]
      split
      · rcases hrest (word.length - 1) with ⟨hnil, -⟩ | hvisible
        · rwa [hnil, List.append_nil]
        · exact hvisible.behind new
      · rcases hrest 0 with ⟨hnil, hcs⟩ | hvisible
        · obtain rfl : cs = [] := by simpa using hcs
          rwa [hnil]
        · exact hvisible.behind [c]

theorem endsVisible_filter {f : Filter} (hname : isName f.name = true) (args : List String) :
    EndsVisible (" | " ++ f.name ++
      if f.arguments.isEmpty then "" else "(" ++ joinWith ", " args ++ ")").toList := by
  split_ifs
  · rw [String.append_empty]
    exact endsVisible_behind (framed_word (isWord_of_isName hname)).last _
  · exact endsVisible_behind (endsVisible_behind ⟨_, rfl, by decide⟩ _) _

theorem framed_replace {code tail : List Char} (hcode : Framed code) (htail : EndsVisible tail)
    (hblank : tail.head? = some ' ') :
    Framed (replace filterMark.toList code (filterMark.toList ++ tail)) := by
  obtain ⟨rest, rfl⟩ := List.head?_eq_some_iff.1 hblank
  rw [replace_word filterMark_ne_nil]
  apply hcode.append
  · have hpre : filterMark.toList.isPrefixOf (' ' :: rest) = false := rfl
    rw [replace, replaceFrom, if_neg (by simp [hpre])]
    rfl
  · exact (endsVisible_replaceFrom hcode.last 0 htail).resolve_left fun h => h.1 rfl

theorem framed_applyFilters {fs : List Filter} {code result : String}
    (h : applyFilters code fs = .ok result) (hspelled : ∀ f ∈ fs, f.isSpelled = true)
    (hcode : Framed code.toList) : Framed result.toList := by
  induction fs generalizing code with
  | nil =>
    obtain rfl := Except.ok.inj h
    exact hcode
  | cons f fs ih =>
    rw [List.forall_mem_cons] at hspelled
    have hf := hspelled.1
    rw [Filter.isSpelled, Bool.and_eq_true] at hf
    simp only [applyFilters, bind_eq_ok] at h
    obtain ⟨applied, happlied, hrest⟩ := h
    obtain ⟨args, -, rfl⟩ := filterCode_ok happlied
    apply ih hrest hspelled.2
    rw [String.toList_ofList, String.toList_append]
    refine framed_replace hcode (endsVisible_filter hf.1 args) ?_
    rw [String.append_assoc, String.toList_append]
    rfl

theorem framed_compile {source : String} {compiled : Compiled} (hblank : allBlank source = false)
    (h : compile source = .ok compiled) : Framed compiled.text.toList := by
  obtain ⟨e, he⟩ := exists_parsed hblank h
  obtain ⟨hspelled, hfilters⟩ := parse_isSpelled he
  obtain ⟨base, hbase, happly⟩ := compile_ok he h
  exact framed_applyFilters happly hfilters (framed_generate e.expression hbase hspelled)

end VueToSan.Expr
