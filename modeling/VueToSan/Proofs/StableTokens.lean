import VueToSan.Proofs.LexedParts

/-!
# Stable tokens

The tokens of a source stand one after the other with separators between them. A space ends every
token, as commas and closing brackets do, so the text of a token is cut into that token alone, and
the texts of all tokens with single spaces between them are cut into the same tokens. Where the
source starts only shifts the spans.
-/

namespace VueToSan.Expr

/-- Characters that go on with no token in front of them. -/
def dividers : List Char := [' ', ',', ')', ']', '}']

/-- Characters that go on with no token but a string. -/
def stoppers : List Char := '\x27' :: dividers

end VueToSan.Expr

namespace VueToSan.Number

open VueToSan.Text VueToSan.Expr

/-! ## Numerals in front of a stopper -/

theorem takeWhile_append_cons {p : Char → Bool} {d : Char} (hp : p d = false)
    (cs rest : List Char) : (cs ++ d :: rest).takeWhile p = cs.takeWhile p := by
  induction cs with
  | nil => simp [hp]
  | cons c cs ih => simp only [List.cons_append, List.takeWhile_cons, ih]

theorem dropWhile_append_cons {p : Char → Bool} {d : Char} (hp : p d = false)
    (cs rest : List Char) : (cs ++ d :: rest).dropWhile p = cs.dropWhile p ++ d :: rest := by
  induction cs with
  | nil => simp [hp]
  | cons c cs ih =>
    simp only [List.cons_append, List.dropWhile_cons, ih]
    split <;> rfl

section Stoppers

variable {d : Char} (hd : d ∈ stoppers)

include hd

theorem isDigit_stopper : isDigit d = false := by
  have hall : ∀ d ∈ stoppers, isDigit d = false := forall_of_all (by decide)
  exact hall d hd

theorem not_mark_stopper : d ≠ '+' ∧ d ≠ '-' ∧ d ≠ '.' ∧ d ≠ 'e' ∧ d ≠ 'E' := by
  have hall : ∀ d ∈ stoppers, d ≠ '+' ∧ d ≠ '-' ∧ d ≠ '.' ∧ d ≠ 'e' ∧ d ≠ 'E' :=
    forall_of_all (by decide)
  exact hall d hd

theorem spanSign_stopper (cs rest : List Char) :
    spanSign (cs ++ d :: rest) = ((spanSign cs).1, (spanSign cs).2 ++ d :: rest) := by
  cases cs with
  | nil =>
    obtain ⟨hplus, hminus, -⟩ := not_mark_stopper hd
    rw [List.nil_append, spanSign_other hplus hminus]
    rfl
  | cons c cs =>
    by_cases hplus : c = '+'
    · subst hplus
      rfl
    · by_cases hminus : c = '-'
      · subst hminus
        rfl
      · rw [List.cons_append, spanSign_other hplus hminus, spanSign_other hplus hminus]
        rfl

theorem spanFraction_stopper (cs rest : List Char) :
    spanFraction (cs ++ d :: rest) = ((spanFraction cs).1, (spanFraction cs).2 ++ d :: rest) := by
  cases cs with
  | nil =>
    obtain ⟨-, -, hpoint, -⟩ := not_mark_stopper hd
    simp [spanFraction, hpoint]
  | cons c cs =>
    by_cases hpoint : c = '.'
    · subst hpoint
      simp only [List.cons_append, spanFraction, takeWhile_append_cons (isDigit_stopper hd),
        dropWhile_append_cons (isDigit_stopper hd)]
    · simp [spanFraction, hpoint]

theorem spanExponent_stopper (cs rest : List Char) :
    spanExponent (cs ++ d :: rest) =
      (spanExponent cs).map fun (negative, exponent, behind) =>
        (negative, exponent, behind ++ d :: rest) := by
  cases cs with
  | nil =>
    obtain ⟨-, -, -, he, hE⟩ := not_mark_stopper hd
    simp [spanExponent, he, hE]
  | cons c cs =>
    rw [List.cons_append, spanExponent_eq, spanExponent_eq, spanSign_stopper hd,
      takeWhile_append_cons (isDigit_stopper hd), dropWhile_append_cons (isDigit_stopper hd)]
    split_ifs <;> rfl

theorem spanNumeral_stopper (cs rest : List Char) :
    spanNumeral (cs ++ d :: rest) =
      (spanNumeral cs).map fun (n, behind) => (n, behind ++ d :: rest) := by
  rw [spanNumeral_eq, spanNumeral_eq, takeWhile_append_cons (isDigit_stopper hd),
    dropWhile_append_cons (isDigit_stopper hd), spanFraction_stopper hd, spanExponent_stopper hd]
  split_ifs
  · rfl
  · cases spanExponent (spanFraction (cs.dropWhile isDigit)).2 <;> rfl

end Stoppers

end VueToSan.Number

namespace VueToSan.Expr

open VueToSan.Text VueToSan.Number

/-! ## Tokens in front of a stopper -/

section Stoppers

variable {d : Char} (hd : d ∈ stoppers)

include hd

theorem hexDigits?_stopper (cs rest : List Char) :
    hexDigits? (cs ++ d :: rest) = hexDigits? cs := by
  have hall : ∀ d ∈ stoppers, d ≠ '0' ∧ d ≠ 'x' ∧ d ≠ 'X' ∧ isDigitOf 16 d = false :=
    forall_of_all (by decide)
  obtain ⟨hzero, hx, hX, hdigit⟩ := hall d hd
  match cs with
  | [] =>
    cases rest <;> simp [hexDigits?, hzero]
  | [c] =>
    by_cases hc : c = '0'
    · subst hc
      simp [hexDigits?, hx, hX]
    · simp [hexDigits?, hc]
  | c :: x :: cs =>
    by_cases hc : c = '0'
    · subst hc
      simp only [List.cons_append, hexDigits?, takeWhile_append_cons hdigit]
    · simp [hexDigits?, hc]

theorem scanNumber?_stopper (cs rest : List Char) :
    scanNumber? (cs ++ d :: rest) = scanNumber? cs := by
  unfold scanNumber?
  rw [hexDigits?_stopper hd]
  split
  · rfl
  · rw [spanNumeral_stopper hd]
    cases spanNumeral cs with
    | none => rfl
    | some r =>
      obtain ⟨n, behind⟩ := r
      simp only [Option.map_some, List.length_append]
      congr 2
      omega

omit hd in
theorem isPrefixOf_append_cons {word : List Char} (hword : d ∉ word) (cs rest : List Char) :
    word.isPrefixOf (cs ++ d :: rest) = word.isPrefixOf cs := by
  induction word generalizing cs with
  | nil => simp only [List.isPrefixOf]
  | cons e word ih =>
    obtain ⟨he, hword⟩ := not_or.1 (mt List.mem_cons.2 hword)
    cases cs with
    | nil => simp [List.isPrefixOf, Ne.symm he]
    | cons c cs => simp only [List.cons_append, List.isPrefixOf, ih hword]

theorem scanPunct_stopper (c : Char) (cs rest : List Char) :
    scanPunct (c :: (cs ++ d :: rest)) = scanPunct (c :: cs) := by
  have hall : ∀ d ∈ stoppers, ∀ p ∈ Punct.all, d ∉ p.text.toList.tail :=
    forall_of_all (by decide +kernel)
  have hstarts : (fun p : Punct => p.text.toList.isPrefixOf (c :: (cs ++ d :: rest))) =
      fun p => p.text.toList.isPrefixOf (c :: cs) := by
    funext p
    obtain ⟨e, word, htext, -⟩ := p.text_cases
    have hword := hall d hd p p.mem_all
    rw [htext, List.tail_cons] at hword
    rw [htext, List.isPrefixOf, List.isPrefixOf, isPrefixOf_append_cons hword]
  rw [scanPunct, scanPunct, hstarts]

end Stoppers

theorem scanString_append {q : Char} (hq : q ≠ '\\') {cs : List Char} {t : Token} {more : Nat}
    (h : scanString q cs = .token t more) (rest : List Char) :
    scanString q (cs ++ rest) = .token t more := by
  unfold scanString at h
  split at h
  · rename_i body hspan
    obtain ⟨behind, rfl, hread⟩ := spanString_closed hq hspan
    rw [List.append_assoc, List.cons_append, scanString, hread]
    exact h
  · cases h

theorem scanTemplate_append {cs : List Char} {t : Token} {more : Nat}
    (h : scanTemplate cs = .token t more) (rest : List Char) :
    scanTemplate (cs ++ rest) = .token t more := by
  unfold scanTemplate at h
  split at h
  · rename_i body hbody
    obtain ⟨behind, rfl, hread⟩ := templateBody?_closed hbody
    rw [List.append_assoc, List.cons_append, scanTemplate, hread]
    exact h
  · cases h

/-- A stopper ends a token that is no string, and nothing behind it changes the token. -/
theorem scan_stopper {c d : Char} (hc : opensString c = false) (hd : d ∈ stoppers)
    (cs rest : List Char) : scan c (cs ++ d :: rest) = scan c cs := by
  have hall : ∀ d ∈ stoppers, isIdentPart d = false := forall_of_all (by decide)
  simp only [opensString, Bool.or_eq_false_iff, beq_eq_false_iff_ne] at hc
  obtain ⟨⟨hsingle, hdouble⟩, hback⟩ := hc
  unfold scan
  rw [takeWhile_append_cons (hall d hd), if_neg (not_or.2 ⟨hsingle, hdouble⟩), if_neg hback,
    if_neg (not_or.2 ⟨hsingle, hdouble⟩), if_neg hback, scanPunct_stopper hd, ← List.cons_append,
    scanNumber?_stopper hd]

/-- A divider ends a token, and nothing behind it changes the token. -/
theorem scan_divider {c d : Char} {cs : List Char} {t : Token} {more : Nat} (hd : d ∈ dividers)
    (h : scan c cs = .token t more) (rest : List Char) :
    scan c (cs ++ d :: rest) = .token t more := by
  cases hc : opensString c with
  | false => rw [scan_stopper hc (List.mem_cons_of_mem _ hd), h]
  | true =>
    simp only [opensString, Bool.or_eq_true, beq_iff_eq] at hc
    rcases hc with (rfl | rfl) | rfl
    · exact scanString_append (by decide) h _
    · exact scanString_append (by decide) h _
    · exact scanTemplate_append h _

theorem Scans.divided {c d : Char} {body front : List Char} {t : Token} (hd : d ∈ dividers)
    (h : Scans c body front t) (rest : List Char) : Scans c body (d :: rest) t where
  scan shorter hshorter := by
    have halone := h.scan [] List.nil_prefix
    rw [List.append_nil] at halone
    cases shorter with
    | nil => rwa [List.append_nil]
    | cons e shorter =>
      obtain ⟨rfl, -⟩ := List.cons_prefix_cons.1 hshorter
      exact scan_divider hd halone shorter
  last := h.last
  weight := h.weight

theorem Lexed.lexesTo {pos : Nat} {d : Char} {cs : List Char} {ts : List Lexeme}
    (h : Lexed pos cs ts) (hd : d ∈ dividers) (rest : List Char) :
    LexesTo cs (d :: rest) (ts.map (·.token)) := by
  induction h with
  | nil => exact LexesTo.nil _
  | space hsep _ ih => exact (LexesTo.separator hsep _).append ih
  | @token pos c body behind t ts hsep hscans _ ih =>
    have hscan := scan_divider hd (hscans.scan behind List.prefix_rfl) rest
    rw [List.append_assoc] at hscan
    exact (lexesTo_token hsep hscan).append ih

/-! ## Tokens in their places -/

def Lexeme.shift (t : Lexeme) (offset : Nat) : Lexeme := ⟨t.token, t.span.shift offset⟩

theorem Lexed.shifted {pos : Nat} {cs : List Char} {ts : List Lexeme} (h : Lexed pos cs ts)
    (offset : Nat) : Lexed (pos + offset) cs (ts.map (·.shift offset)) := by
  induction h with
  | nil => exact .nil
  | @space pos c cs ts hsep _ ih =>
    rw [Nat.add_right_comm] at ih
    exact .space hsep ih
  | @token pos c body rest t ts hsep hscans _ ih =>
    rw [Nat.add_right_comm] at ih
    have hspan : (Lexeme.mk t ⟨pos, pos + byteLength (c :: body)⟩).shift offset =
        ⟨t, ⟨pos + offset, pos + offset + byteLength (c :: body)⟩⟩ := by
      simp only [Lexeme.shift, Span.shift]
      congr 2
      omega
    rw [List.map_cons, hspan]
    exact .token hsep hscans ih

def StandsAt (pos : Nat) (cs : List Char) (span : Span) (text : List Char) : Prop :=
  ∃ before after, cs = before ++ (text ++ after) ∧
    span = ⟨pos + byteLength before, pos + byteLength before + byteLength text⟩

theorem Lexed.stands {pos : Nat} {cs : List Char} {ts : List Lexeme} (h : Lexed pos cs ts) :
    ∀ t ∈ ts, ∃ c body, StandsAt pos cs t.span (c :: body) ∧ isSeparator c = false ∧
      Scans c body [] t.token := by
  induction h with
  | nil => exact List.forall_mem_nil _
  | @space pos c cs ts hsep _ ih =>
    intro t ht
    obtain ⟨d, body, ⟨before, after, rfl, hspan⟩, hd, hscans⟩ := ih t ht
    refine ⟨d, body, ⟨c :: before, after, rfl, ?_⟩, hd, hscans⟩
    rw [hspan, byteLength_cons c, Nat.add_assoc pos]
  | @token pos c body rest t ts hsep hscans _ ih =>
    refine List.forall_mem_cons.2 ⟨?_, fun u hu => ?_⟩
    · exact ⟨c, body, ⟨[], rest, rfl, rfl⟩, hsep, hscans.cut List.nil_prefix⟩
    · obtain ⟨d, inner, ⟨before, after, rfl, hspan⟩, hd, hinner⟩ := ih u hu
      refine ⟨d, inner, ⟨c :: body ++ before, after, by simp, ?_⟩, hd, hinner⟩
      rw [hspan, byteLength_append, Nat.add_assoc pos]

theorem Lexed.gaps {pos : Nat} {cs : List Char} {ts : List Lexeme} (h : Lexed pos cs ts)
    {before after : List Char} {c : Char} (hcs : cs = before ++ c :: after) {k : Nat}
    (hk : k < c.utf8Size)
    (hout : ∀ t ∈ ts, pos + byteLength before + k < t.span.start ∨
      t.span.stop ≤ pos + byteLength before + k) : isSeparator c = true := by
  induction h generalizing before with
  | nil => simp at hcs
  | @space pos d cs ts hsep _ ih =>
    cases before with
    | nil =>
      obtain ⟨rfl, -⟩ := List.cons.inj hcs
      exact hsep
    | cons e before =>
      obtain ⟨rfl, rfl⟩ := List.cons.inj hcs
      refine ih rfl fun t ht => ?_
      rw [Nat.add_assoc pos, ← byteLength_cons]
      exact hout t ht
  | @token pos d body rest t ts hsep _ _ ih =>
    rw [← List.cons_append] at hcs
    obtain ⟨hown, hout⟩ := List.forall_mem_cons.1 hout
    rcases List.append_eq_append_iff.1 hcs with ⟨more, rfl, hmore⟩ | ⟨more, hbody, hmore⟩
    · refine ih hmore fun t ht => ?_
      have := hout t ht
      rw [byteLength_append] at this
      omega
    · cases more with
      | nil =>
        rw [List.append_nil] at hbody
        have hrest : rest = [] ++ _ := hmore.symm
        refine ih hrest fun t ht => ?_
        rw [hbody]
        exact hout t ht
      | cons e more =>
        -- The byte is one of the token.
        obtain ⟨rfl, -⟩ := List.cons.inj hmore
        rw [hbody, byteLength_append, byteLength_cons] at hown
        dsimp only at hown
        omega

/-! ## Texts of tokens -/

theorem slice_stands {source : String} {span : Span} {text : List Char}
    (h : StandsAt 0 source.toList span text) : (span.slice source).toList = text := by
  obtain ⟨before, after, hsource, rfl⟩ := h
  rw [Span.slice, hsource, Nat.zero_add, sliceBytes?_append, Option.getD_some,
    String.toList_ofList]

theorem lexed_alone {c : Char} {body : List Char} {t : Token} (hc : isSeparator c = false)
    (h : Scans c body [] t) (pos : Nat) :
    Lexed pos (c :: body) [⟨t, ⟨pos, pos + byteLength (c :: body)⟩⟩] := by
  have hend : Lexed (pos + byteLength (c :: body)) [] [] := .nil
  have halone := Lexed.token hc h hend
  rwa [List.append_nil] at halone

theorem lexed_joined {α : Type} {text : α → String} {token : α → Token} {us : List α}
    (h : ∀ u ∈ us, ∃ c body, (text u).toList = c :: body ∧ isSeparator c = false ∧
      Scans c body [] (token u)) (pos : Nat) :
    ∃ vs : List Lexeme, vs.map (·.token) = us.map token ∧
      Lexed pos (joinWith " " (us.map text)).toList vs := by
  induction us generalizing pos with
  | nil => exact ⟨[], rfl, .nil⟩
  | cons u us ih =>
    obtain ⟨⟨c, body, htext, hc, hscans⟩, hrest⟩ := List.forall_mem_cons.1 h
    cases us with
    | nil =>
      refine ⟨[⟨token u, ⟨pos, pos + byteLength (c :: body)⟩⟩], rfl, ?_⟩
      rw [List.map_singleton, joinWith, htext]
      exact lexed_alone hc hscans pos
    | cons v us =>
      obtain ⟨vs, hvs, hlexed⟩ := ih hrest (pos + byteLength (c :: body) + ' '.utf8Size)
      refine ⟨⟨token u, ⟨pos, pos + byteLength (c :: body)⟩⟩ :: vs,
        congrArg (token u :: ·) hvs, ?_⟩
      have hjoin : (joinWith " " ((u :: v :: us).map text)).toList =
          c :: (body ++ ' ' :: (joinWith " " ((v :: us).map text)).toList) := by
        simp [joinWith, htext]
      rw [hjoin]
      exact .token hc (hscans.divided (by decide) _) (.space rfl hlexed)

/-- Tokens cut a source: none is empty, they follow each other, and only separators stand outside of
them. -/
structure Tiles (source : String) (ts : List Lexeme) : Prop where
  spans : ∀ t ∈ ts, t.span.start < t.span.stop ∧ t.span.stop ≤ byteLength source.toList
  order : ts.Pairwise fun t u => t.span.stop ≤ u.span.start
  gaps : ∀ before c after, source.toList = before ++ c :: after → ∀ k < c.utf8Size,
    (∀ t ∈ ts, byteLength before + k < t.span.start ∨ t.span.stop ≤ byteLength before + k) →
      c ∈ [' ', '\t', '\r', '\n', '\x0c']

theorem Lexed.tiles {source : String} {ts : List Lexeme} (h : Lexed 0 source.toList ts) :
    Tiles source ts where
  spans t ht := by
    obtain ⟨c, body, ⟨before, after, -, hspan⟩, -⟩ := h.stands t ht
    have hin := (h.inOrder.spans t ht).2
    rw [Nat.zero_add] at hin
    refine ⟨?_, hin⟩
    have := c.utf8Size_pos
    rw [hspan, byteLength_cons]
    dsimp only
    omega
  order := h.inOrder.order
  gaps before c after hsource k hk hout := by
    have hsep := h.gaps hsource hk (by simpa using hout)
    simpa [isSeparator, or_assoc] using hsep

/-- The tokens of a source tile it, and its offset only shifts them. The text of each token is cut
into that token alone, and the texts with single spaces between them into the same tokens. -/
theorem tokenize_stable {source : String} {base : Nat} {ts : List Lexeme}
    (h : tokenize source base = .ok ts) :
    ∃ us : List Lexeme, Tiles source us ∧
      ts = us.map (·.shift base) ∧
      (∀ other, tokenize source other = .ok (us.map (·.shift other))) ∧
      (∀ u ∈ us, ∀ pos, tokenize (u.span.slice source) pos =
        .ok [⟨u.token, ⟨pos, pos + u.span.length⟩⟩]) ∧
      ∀ pos, ∃ vs, tokenize (joinWith " " (us.map (·.span.slice source))) pos = .ok vs ∧
        vs.map (·.token) = us.map (·.token) := by
  obtain ⟨us, -, hus⟩ := (tokenizeFrom_eq_ok.1 h).shift 0
  have hshift (other : Nat) : tokenize source other = .ok (us.map (·.shift other)) := by
    have hmoved := hus.shifted other
    rw [Nat.zero_add] at hmoved
    exact hmoved.tokenizeFrom
  refine ⟨us, hus.tiles, Except.ok.inj (h.symm.trans (hshift base)), hshift, ?_, ?_⟩
  · intro u hu pos
    obtain ⟨c, body, hstands, hc, hscans⟩ := hus.stands u hu
    have hlength : u.span.length = byteLength (c :: body) := by
      obtain ⟨before, after, -, hspan⟩ := hstands
      rw [hspan, Span.length, Nat.add_sub_cancel_left]
    rw [tokenize, slice_stands hstands, hlength]
    exact (lexed_alone hc hscans pos).tokenizeFrom
  · intro pos
    have htexts : ∀ u ∈ us, ∃ c body, (u.span.slice source).toList = c :: body ∧
        isSeparator c = false ∧ Scans c body [] u.token := by
      intro u hu
      obtain ⟨c, body, hstands, hc, hscans⟩ := hus.stands u hu
      exact ⟨c, body, slice_stands hstands, hc, hscans⟩
    obtain ⟨vs, hvs, hlexed⟩ := lexed_joined htexts pos
    exact ⟨vs, hlexed.tokenizeFrom, hvs⟩

def sampleMarks : String := "1..5>>>=0x\t`$\x7b'\x7d'\x7d`"

theorem sampleMarks_stable :
    ∃ ts vs, tokenize sampleMarks 7 = .ok ts ∧
      tokenize "1. .5 >>> = 0 x `$\x7b'\x7d'\x7d`" 0 = .ok vs ∧
      vs.map (·.token) = ts.map (·.token) := by
  have hsome : (tokenize sampleMarks 7).toOption.isSome = true := by decide +kernel
  have hspans : (tokenize sampleMarks 0).toOption.map (·.map (·.span)) =
      some [⟨0, 2⟩, ⟨2, 4⟩, ⟨4, 7⟩, ⟨7, 8⟩, ⟨8, 9⟩, ⟨9, 10⟩, ⟨11, 19⟩] := by
    decide +kernel
  obtain ⟨ts, hts⟩ := Option.isSome_iff_exists.1 hsome
  rw [toOption_eq_some] at hts
  obtain ⟨us, -, rfl, hshift, -, hjoined⟩ := tokenize_stable hts
  obtain ⟨vs, hvs, htokens⟩ := hjoined 0
  refine ⟨_, vs, hts, ?_, ?_⟩
  · rw [hshift 0, toOption_ok, Option.map_some, Option.some.injEq] at hspans
    have hslices : us.map (·.span.slice sampleMarks) =
        ["1.", ".5", ">>>", "=", "0", "x", "`$\x7b'\x7d'\x7d`"] := by
      have htexts := congrArg (List.map (·.slice sampleMarks)) hspans
      rw [List.map_map, List.map_map] at htexts
      exact htexts.trans (by decide +kernel)
    rw [hslices] at hvs
    exact hvs
  · rw [htokens, List.map_map]
    rfl

end VueToSan.Expr
