import VueToSan.Proofs.BracketedTokens
import VueToSan.Proofs.MovedParses
import VueToSan.Proofs.TemplatePieces

/-!
# Interpolated code

An expression can be put into an interpolation just when the scanner of templates takes it for the
whole code. That scanner counts braces and skips quoted strings, but it does not know of template
strings inside the code: their braces and quotes count like any others.
-/

namespace VueToSan.Expr

open VueToSan.Text VueToSan.Number

/-! ## Braces of tokens -/

def Token.braces (depth : Nat) : Token → Option Nat
  | .punct .lbrace => some (depth + 1)
  | .punct .rbrace => if depth = 0 then none else some (depth - 1)
  | _ => some depth

def braces : Nat → List Lexeme → Option Nat
  | depth, [] => some depth
  | depth, t :: ts => (t.token.braces depth).bind (braces · ts)

theorem braces_append (depth : Nat) (ts us : List Lexeme) :
    braces depth (ts ++ us) = (braces depth ts).bind (braces · us) := by
  induction ts generalizing depth with
  | nil => rfl
  | cons t ts ih =>
    rw [List.cons_append, braces, braces, Option.bind_assoc]
    congr 1
    funext d
    exact ih d

theorem braces_of_depth? {nested : Bool} {t : Token} (h : t.depth? nested 0 = some 0)
    (depth : Nat) : t.braces depth = some depth := by
  cases t with
  | punct p => cases p <;> first | rfl | cases h
  | _ => rfl

theorem Bracketed.braces {nested : Bool} {ts : List Lexeme} (h : Bracketed nested ts)
    (depth : Nat) : Expr.braces depth ts = some depth := by
  induction h generalizing depth with
  | nil => rfl
  | token ht _ ih => rw [Expr.braces, braces_of_depth? ht, Option.bind_some, ih]
  | enclosed b _ _ ihts ihus =>
    cases b <;>
      simp [Expr.braces, braces_append, Token.braces, Bracket.opening, Bracket.closing, ihts, ihus]

/-! ## Crossing texts -/

theorem crossing_append {depth depth' : Nat} {quote quote' : Option Char} {cs : List Char}
    (h : crossing depth quote cs = some (depth', quote')) (ds : List Char) :
    crossing depth quote (cs ++ ds) = crossing depth' quote' ds := by
  fun_induction crossing depth quote cs with
  | case1 =>
    obtain ⟨rfl, rfl⟩ := Prod.mk.inj (Option.some.inj h)
    rfl
  | case2 => cases h
  | case3 depth quote c cs ih => exact ih h
  | case4 depth quote c cs hone hmore ih =>
    obtain ⟨s, hafter, hcross⟩ := Option.bind_eq_some_iff.1 h
    rw [List.cons_append, crossing_char (ne_backslash hone hmore), hafter]
    exact ih s.1 s.2 hcross

theorem afterChar_deeper {depth depth' : Nat} {quote quote' : Option Char} {c : Char}
    (h : afterChar depth quote c = some (depth', quote')) (more : Nat) :
    afterChar (depth + more) quote c = some (depth' + more, quote') := by
  cases quote with
  | some q =>
    obtain ⟨rfl, rfl⟩ := Prod.mk.inj (Option.some.inj h)
    rfl
  | none =>
    unfold afterChar at h ⊢
    dsimp only at h ⊢
    split_ifs at h ⊢ <;> simp_all <;> omega

theorem crossing_deeper {depth depth' : Nat} {quote quote' : Option Char} {cs : List Char}
    (h : crossing depth quote cs = some (depth', quote')) (more : Nat) :
    crossing (depth + more) quote cs = some (depth' + more, quote') := by
  fun_induction crossing depth quote cs with
  | case1 =>
    obtain ⟨rfl, rfl⟩ := Prod.mk.inj (Option.some.inj h)
    rfl
  | case2 => cases h
  | case3 depth quote c cs ih => exact ih h
  | case4 depth quote c cs hone hmore ih =>
    obtain ⟨s, hafter, hcross⟩ := Option.bind_eq_some_iff.1 h
    rw [crossing_char (ne_backslash hone hmore), afterChar_deeper hafter]
    exact ih s.1 s.2 hcross

theorem IsInterior.crossing {cs : List Char} (h : IsInterior cs) (depth : Nat) :
    crossing depth none cs = some (depth, none) := by
  have hdeeper := crossing_deeper h depth
  rwa [Nat.zero_add] at hdeeper

def isPlain (c : Char) : Bool :=
  c != '\\' && c != '{' && c != '}' && c != '\x27' && c != '\x22'

theorem crossing_cons {c : Char} (hc : isPlain c = true) (depth : Nat) (cs : List Char) :
    crossing depth none (c :: cs) = crossing depth none cs := by
  simp only [isPlain, Bool.and_eq_true, bne_iff_ne] at hc
  obtain ⟨⟨⟨⟨hslash, hopen⟩, hclose⟩, hsingle⟩, hdouble⟩ := hc
  rw [crossing_char hslash]
  simp [afterChar, hopen, hclose, hsingle, hdouble]

theorem crossing_plain {cs : List Char} (h : ∀ c ∈ cs, isPlain c = true) (depth : Nat) :
    crossing depth none cs = some (depth, none) := by
  induction cs with
  | nil => rfl
  | cons c cs ih =>
    rw [List.forall_mem_cons] at h
    rw [crossing_cons h.1, ih h.2]

theorem isPlain_of {p : Char → Bool} {c : Char} (h : p c = true)
    (hp : p '\\' = false ∧ p '{' = false ∧ p '}' = false ∧ p '\x27' = false ∧ p '\x22' = false) :
    isPlain c = true := by
  have hne : ∀ d, p d = false → (c != d) = true := by
    rintro d hd
    rw [bne_iff_ne]
    rintro rfl
    rw [h] at hd
    cases hd
  simp only [isPlain, hne _ hp.1, hne _ hp.2.1, hne _ hp.2.2.1, hne _ hp.2.2.2.1, hne _ hp.2.2.2.2,
    Bool.and_self]

/-! ## Crossing tokens -/

/-- A token whose text changes the braces of a code as the token does. -/
def CrossedAs (t : Token) (text : List Char) : Prop :=
  ∀ depth, crossing depth none text = (t.braces depth).map (·, none)

theorem crossedAs_plain {t : Token} {text : List Char} (h : ∀ c ∈ text, isPlain c = true)
    (ht : ∀ depth, t.braces depth = some depth) : CrossedAs t text := fun depth => by
  rw [crossing_plain h, ht, Option.map_some]

theorem isPlain_of_isIdentPart {c : Char} (h : isIdentPart c = true) : isPlain c = true :=
  isPlain_of h (by decide)

theorem crossedAs_word {c : Char} {body : List Char} {t : Token} (hc : isIdentStart c = true)
    (h : scan c body = .token t body.length) : CrossedAs t (c :: body) := by
  simp only [scan, hc, if_true, List.length_cons, Nat.add_sub_cancel] at h
  obtain ⟨rfl, hlength⟩ := Scanned.token.inj h
  have hbody : body.takeWhile isIdentPart = body :=
    (List.takeWhile_prefix isIdentPart).eq_of_length hlength
  refine crossedAs_plain (List.forall_mem_cons.2 ⟨?_, fun d hd => ?_⟩) fun depth => ?_
  · exact isPlain_of_isIdentPart (by simp [isIdentPart, hc])
  · rw [← hbody] at hd
    exact isPlain_of_isIdentPart (of_mem_takeWhile d hd)
  · unfold wordToken
    split <;> rfl

theorem crossing_spanString {q : Char} (hq : q ≠ '\\') {cs body : List Char}
    (h : spanString q cs = (body, true)) (depth : Nat) :
    crossing depth (some q) (body ++ [q]) = some (depth, none) := by
  fun_induction spanString q cs generalizing body with
  | case1 => cases h
  | case2 => cases h
  | case3 => cases h
  | case4 c cs hline r =>
    rename_i ih
    obtain ⟨rfl, hclosed⟩ := Prod.mk.inj h
    have hbehind : crossing depth (some q) (r.1 ++ [q]) = some (depth, none) :=
      ih (Prod.ext rfl hclosed)
    exact hbehind
  | case5 cs =>
    obtain ⟨rfl, -⟩ := Prod.mk.inj h
    rw [List.nil_append, crossing_char hq, afterChar]
    simp [crossing]
  | case6 => cases h
  | case7 c cs hone hmore hquote hline r =>
    rename_i ih
    obtain ⟨rfl, hclosed⟩ := Prod.mk.inj h
    rw [List.cons_append, crossing_char (ne_backslash hone hmore), afterChar]
    simpa [hquote] using ih (Prod.ext rfl hclosed)

theorem crossedAs_string {q : Char} (hq : q = '\x27' ∨ q = '\x22') {body : List Char} {t : Token}
    (h : scanString q body = .token t body.length) : CrossedAs t (q :: body) := by
  have hslash : q ≠ '\\' := by
    rcases hq with rfl | rfl <;> decide
  unfold scanString at h
  split at h
  · rename_i inner hspan
    obtain ⟨rfl, hlength⟩ := Scanned.token.inj h
    obtain ⟨rest, rfl, -⟩ := spanString_closed hslash hspan
    obtain rfl : rest = [] := by
      rw [← List.length_eq_zero_iff]
      simp only [List.length_append, List.length_cons] at hlength
      omega
    intro depth
    have hafter : afterChar depth none q = some (depth, some q) := by
      rcases hq with rfl | rfl <;> rfl
    rw [crossing_char hslash, hafter]
    exact crossing_spanString hslash hspan depth
  · cases h

theorem crossedAs_template {c : Char} {text : List Char} {body : String}
    (h : Scans c text [] (.template body)) (hbody : IsInterior body.toList) :
    CrossedAs (.template body) (c :: text) := fun depth => by
  rw [h.template, crossing_cons (by decide), crossing_append (hbody.crossing depth)]
  rfl

theorem isPlain_of_isNumeralPart {c : Char} (h : isNumeralPart c = true) : isPlain c = true :=
  isPlain_of h (by decide)

theorem crossedAs_number {c : Char} {body : List Char} {t : Token}
    (h : scanNumber? (c :: body) = some (.token t body.length)) : CrossedAs t (c :: body) := by
  unfold scanNumber? at h
  split at h
  · rename_i digits hhex
    obtain ⟨x, behind, hcs, hx, rfl, -⟩ := hexDigits?_some hhex
    obtain ⟨rfl, rfl⟩ := List.cons.inj hcs
    dsimp only at h
    split_ifs at h with hsize
    · obtain ⟨rfl, hlength⟩ := Scanned.token.inj (Option.some.inj h)
      have hdigits : behind.takeWhile (isDigitOf 16) = behind :=
        (List.takeWhile_prefix _).eq_of_length (by simpa using hlength)
      refine crossedAs_plain (List.forall_mem_cons.2 ⟨by decide, ?_⟩) fun _ => rfl
      refine List.forall_mem_cons.2 ⟨by rcases hx with rfl | rfl <;> decide, fun d hd => ?_⟩
      rw [← hdigits] at hd
      exact isPlain_of (of_mem_takeWhile d hd) (by decide)
    · cases Option.some.inj h
  · split at h
    · rename_i n rest hspan
      obtain ⟨used, hused, hchars, hread⟩ := spanNumeral_front hspan
      obtain ⟨rfl, hlength⟩ := Scanned.token.inj (Option.some.inj h)
      cases used with
      | nil => cases hread [] List.nil_prefix
      | cons d used =>
        obtain ⟨rfl, hbody⟩ := List.cons.inj hused
        obtain rfl : body = used ++ rest := hbody
        obtain rfl : rest = [] := by
          rw [← List.length_eq_zero_iff]
          simp only [List.length_cons, List.length_append] at hlength
          omega
        rw [List.append_nil]
        exact crossedAs_plain (fun d hd => isPlain_of_isNumeralPart (hchars d hd)) fun _ => rfl
    · cases h

theorem crossedAs_text (p : Punct) : CrossedAs (.punct p) p.text.toList := by
  by_cases hopen : p = .lbrace
  · subst hopen
    exact fun depth => rfl
  by_cases hclose : p = .rbrace
  · subst hclose
    intro depth
    cases depth <;> rfl
  have hall : Punct.all.all (fun p => p == .lbrace || p == .rbrace || p.text.toList.all isPlain) =
      true := by decide +kernel
  have hplain : ∀ c ∈ p.text.toList, isPlain c = true := by
    simpa [hopen, hclose] using List.all_eq_true.1 hall p p.mem_all
  refine crossedAs_plain hplain fun depth => ?_
  rw [Token.braces]
  · exact fun h => hopen (Token.punct.inj h)
  · exact fun h => hclose (Token.punct.inj h)

theorem crossedAs_punct {c : Char} {body : List Char} {t : Token}
    (h : scanPunct (c :: body) = .token t body.length) : CrossedAs t (c :: body) := by
  unfold scanPunct at h
  split at h
  · rename_i p hfind
    obtain ⟨rfl, hlength⟩ := Scanned.token.inj h
    have hfirst : p.text.toList.isPrefixOf (c :: body) = true := (List.find?_eq_some_iff_append.1 hfind).1
    have hprefix := List.isPrefixOf_iff_prefix.1 hfirst
    obtain ⟨d, text, htext, -⟩ := p.text_cases
    have hsame : p.text.toList = c :: body := by
      refine hprefix.eq_of_length ?_
      rw [← String.length_toList, htext] at hlength
      simpa [htext] using hlength
    rw [← hsame]
    exact crossedAs_text p
  · cases h

theorem Scans.crossedAs {c : Char} {body : List Char} {t : Token} (h : Scans c body [] t)
    (ht : ∀ inner : String, t = .template inner → IsInterior inner.toList) :
    CrossedAs t (c :: body) := by
  have hscan := h.scan [] List.nil_prefix
  rw [List.append_nil] at hscan
  by_cases hstart : isIdentStart c = true
  · exact crossedAs_word hstart hscan
  rw [Expr.scan, if_neg hstart] at hscan
  split_ifs at hscan with hquote hback
  · exact crossedAs_string hquote hscan
  · unfold scanTemplate at hscan
    split at hscan
    · obtain ⟨rfl, -⟩ := Scanned.token.inj hscan
      exact crossedAs_template h (ht _ rfl)
    · cases hscan
  · cases hnumber : scanNumber? (c :: body) with
    | some r =>
      rw [hnumber, Option.getD_some] at hscan
      exact crossedAs_number (hscan ▸ hnumber)
    | none =>
      rw [hnumber, Option.getD_none] at hscan
      exact crossedAs_punct hscan

theorem Lexed.crossing {pos : Nat} {cs : List Char} {ts : List Lexeme} (h : Lexed pos cs ts)
    (hts : ∀ t ∈ ts, ∀ inner : String, t.token = .template inner → IsInterior inner.toList)
    {depth depth' : Nat} (hbraces : braces depth ts = some depth') :
    Expr.crossing depth none cs = some (depth', none) := by
  induction h generalizing depth with
  | nil =>
    obtain rfl := Option.some.inj hbraces
    rfl
  | @space pos c cs ts hsep _ ih =>
    rw [crossing_cons (isPlain_of hsep (by decide)), ih hts hbraces]
  | @token pos c body rest t ts hsep hscans _ ih =>
    obtain ⟨ht, hts⟩ := List.forall_mem_cons.1 hts
    obtain ⟨middle, hmiddle, hrest⟩ := Option.bind_eq_some_iff.1 hbraces
    have hcross := (hscans.cut List.nil_prefix).crossedAs ht depth
    rw [hmiddle, Option.map_some] at hcross
    rw [← List.cons_append, crossing_append hcross, ih hts hrest]

/-! ## An expression as the only part of a template -/

def interpolated (source : String) : String := "\x60$\x7b" ++ source ++ "\x7d\x60"

variable {source : String} {e part : Node} {l : Location}

theorem toList_interpolated (source : String) :
    (interpolated source).toList = '\x60' :: '$' :: '{' :: (source.toList ++ ['}', '\x60']) := by
  simp [interpolated]

/-- In a source whose template strings hold their braces and quotes together, all of them are. -/
theorem isInterior_of_parse (h : parseExpression source = .ok e)
    (htemplates : ∀ ts, tokenize source 0 = .ok ts → ∀ t ∈ ts, ∀ body : String,
      t.token = .template body → IsInterior body.toList) : IsInterior source.toList := by
  obtain ⟨ts, hts, hexpr⟩ := parseExpression_derived h
  obtain ⟨used, hused, hbracketed⟩ := hexpr.between
  rw [List.append_nil] at hused
  subst hused
  exact hts.crossing (htemplates ts hts.tokenizeFrom) (hbracketed.braces 0)

theorem lexed_interpolated (h : IsInterior source.toList) :
    Lexed 0 (interpolated source).toList
      [⟨.template (String.ofList (written [] [(source.toList, [])])),
        ⟨0, byteLength (interpolated source).toList⟩⟩] := by
  have hparts : AreParts [] [(source.toList, [])] :=
    ⟨rfl, List.forall_mem_singleton.2 ⟨h, rfl⟩⟩
  have hscan : scan '\x60' (written [] [(source.toList, [])] ++ ['\x60']) =
      .token (.template (String.ofList (written [] [(source.toList, [])])))
        ((written [] [(source.toList, [])]).length + 1) := by
    have htemplate : scan '\x60' (written [] [(source.toList, [])] ++ ['\x60']) =
        scanTemplate (written [] [(source.toList, [])] ++ ['\x60']) := rfl
    rw [htemplate, scanTemplate, templateBody?_written hparts]
  obtain ⟨body, rest, hbody, hlength, hscans⟩ := scans_of_scan hscan
  rw [← List.append_nil (_ ++ _)] at hbody
  obtain ⟨rfl, rfl⟩ := List.append_inj hbody (by simpa using hlength.symm)
  have hchars : (interpolated source).toList =
      '\x60' :: (written [] [(source.toList, [])] ++ ['\x60'] ++ []) := by
    simp [toList_interpolated, written]
  have hlexed : Lexed 0 _ _ := .token (by decide) hscans .nil
  rw [← hchars] at hlexed
  simpa [hchars] using hlexed

theorem parseExpr_template {s : Setting} {n : Nat} {body : String} {span : Span}
    {parts : List Node} (h : parsePieces s (span.start + 1) n (pieces body.toList) = .ok parts) :
    parseExpr s (n + 5) [⟨.template body, span⟩] = .ok (.template (s.location span) parts, []) := by
  have hprimary : parsePrimary s (n + 1) [⟨.template body, span⟩] =
      .ok (.template (s.location span) parts, []) := by
    rw [parsePrimary, h]
    rfl
  have hmember : parseMember s (n + 2) [⟨.template body, span⟩] =
      .ok (.template (s.location span) parts, []) := by
    rw [parseMember, hprimary]
    rfl
  have hunary : parseUnary s (n + 3) [⟨.template body, span⟩] =
      .ok (.template (s.location span) parts, []) := by
    rw [parseUnary]
    exact hmember
  have hbinary : parseBinary s 0 (n + 4) [⟨.template body, span⟩] =
      .ok (.template (s.location span) parts, []) := by
    rw [parseBinary, hunary]
    rfl
  rw [parseExpr, hbinary]
  rfl

theorem parsePieces_single {s : Setting} {n : Nat} {cs : List Char} {ts : List Lexeme}
    (hts : Lexed 3 cs ts)
    (h : parseExpr ⟨s.lines, 3 + byteLength cs, true⟩ (n + 2) ts = .ok (part, [])) :
    parsePieces s 1 (n + 4) (laidPieces 0 [] [(cs, [])]) = .ok [part] := by
  simp [laidPieces, parsePieces, hts.tokenizeFrom, h, finished]

theorem parseExpression_of_isInterior (h : parseExpression source = .ok e)
    (hinterior : IsInterior source.toList) :
    parseExpression (interpolated source) = .ok (.template
      ((LineIndex.ofText (interpolated source)).location
        ⟨0, byteLength (interpolated source).toList⟩)
      [e.relocated (Location.moved 3)]) := by
  obtain ⟨ts, hts, hexpr⟩ := runParser_eq_ok h
  have hparts : AreParts [] [(source.toList, [])] :=
    ⟨rfl, List.forall_mem_singleton.2 ⟨hinterior, rfl⟩⟩
  have hchars : ['\x60', '$', '{'] ++ (source.toList ++ ['}', '\x60']) =
    (interpolated source).toList := (toList_interpolated source).symm
  have hwidth : byteLength ['\x60', '$', '{'] = 3 := rfl
  have hshifted : Lexed 3 source.toList (ts.map (·.shift 3)) := hts.shifted 3
  have hfuel : ∃ n, fuelFor (interpolated source).toList = n + 9 ∧
      fuelFor source.toList ≤ n + 2 := by
    simp only [fuelFor, toList_interpolated, List.length_cons, List.length_append]
    exact ⟨16 * (source.toList.length + 7) - 9, by simp; omega, by omega⟩
  obtain ⟨n, hn, hle⟩ := hfuel
  have hline : '\n' ∉ ['\x60', '$', '{'] := by decide
  have hmoved := parseExpr_behind hline ['}', '\x60'] (3 + byteLength source.toList) hts hexpr hle
  rw [hchars, hwidth] at hmoved
  have hpieces := parsePieces_single (s := .whole true (interpolated source)) hshifted hmoved
  rw [← pieces_written hparts 0] at hpieces
  refine runParser_ok (lexed_interpolated hinterior).tokenizeFrom ?_
  rw [hn]
  exact parseExpr_template (by simpa [pieces] using hpieces)

theorem derived_template {s : Setting} {body : String} {span : Span} {ts rest : List Lexeme}
    {parts : List Node} (h : ExprDerived s (⟨.template body, span⟩ :: ts) (.template l parts) rest) :
    ts = rest ∧ PartsDerived s (span.start + 1) (pieces body.toList) parts := by
  generalize htokens : Lexeme.mk (.template body) span :: ts = all at h
  generalize hnode : Node.template l parts = e at h
  cases h with
  | template hparts =>
    cases htokens
    cases hnode
    exact ⟨rfl, hparts⟩
  | @operator _ _ _ _ _ b =>
    cases hoperator : b.operator <;> rw [hoperator] at hnode <;> cases hnode
  | parens => cases htokens
  | _ => cases hnode

theorem isSeparator_of_lexed {pos : Nat} {cs : List Char} (h : Lexed pos cs []) :
    ∀ c ∈ cs, isSeparator c = true := by
  generalize hts : ([] : List Lexeme) = ts at h
  induction h with
  | nil => exact List.forall_mem_nil _
  | space hsep _ ih => exact List.forall_mem_cons.2 ⟨hsep, ih hts⟩
  | token => cases hts

theorem eq_nil_of_written {first cs : List Char} {more : List (List Char × List Char)}
    (h : written first more = '$' :: '{' :: cs) (hfirst : isText first = true) : first = [] := by
  cases first with
  | nil => rfl
  | cons c first =>
    rw [written, List.cons_append] at h
    obtain ⟨rfl, hrest⟩ := List.cons.inj h
    cases first with
    | nil => cases more <;> cases hrest
    | cons d first =>
      obtain ⟨rfl, -⟩ := List.cons.inj hrest
      cases hfirst

theorem derived_nil {s : Setting} {base offset : Nat} {first : List Char}
    {more : List (List Char × List Char)}
    (h : PartsDerived s base (laidPieces offset first more) []) : first = [] ∧ more = [] := by
  cases more with
  | nil =>
    rw [laidPieces] at h
    cases h with
    | empty => exact ⟨rfl, rfl⟩
  | cons next more =>
    rw [laidPieces] at h
    cases h with
    | empty h => cases h

theorem found_interpolated {cs found rest : List Char} {pos : Nat}
    (h : '$' :: '{' :: (cs ++ ['}', '\x60']) = found ++ '\x60' :: rest) (hrest : Lexed pos rest []) :
    found = '$' :: '{' :: (cs ++ ['}']) := by
  have hsplit : ('$' :: '{' :: (cs ++ ['}'])) ++ ['\x60'] = found ++ '\x60' :: rest := by
    rw [← h]
    simp
  cases hlast : rest.getLast? with
  | none =>
    obtain rfl := List.getLast?_eq_none_iff.1 hlast
    exact (List.append_inj' hsplit rfl).1.symm
  | some c =>
    have hends := congrArg List.getLast? hsplit
    rw [List.getLast?_concat, List.getLast?_append, List.getLast?_cons, hlast] at hends
    obtain rfl : '\x60' = c := by simpa using hends
    have hsep := isSeparator_of_lexed hrest _ (List.mem_of_getLast? hlast)
    cases hsep

theorem isInterior_of_interpolated
    (h : parseExpression (interpolated source) = .ok (.template l [part])) :
    IsInterior source.toList := by
  obtain ⟨ts, hts, hexpr⟩ := parseExpression_derived h
  rw [toList_interpolated] at hts
  generalize hcs : '\x60' :: '$' :: '{' :: (source.toList ++ ['}', '\x60']) = cs at hts
  cases hts with
  | nil => cases hcs
  | space hsep =>
    obtain ⟨rfl, -⟩ := List.cons.inj hcs
    cases hsep
  | @token _ c body rest t ts hsep hscans hrest =>
    obtain ⟨rfl, hbody⟩ := List.cons.inj hcs
    have hscan : scanTemplate (body ++ rest) = .token t body.length :=
      hscans.scan rest List.prefix_rfl
    unfold scanTemplate at hscan
    split at hscan
    · rename_i found hfound
      obtain ⟨rfl, hlength⟩ := Scanned.token.inj hscan
      obtain ⟨behind, hclosed, -⟩ := templateBody?_closed hfound
      -- Only a template token gives a template, and its parts are derived from the pieces of its
      -- body.
      obtain ⟨rfl, hparts⟩ := derived_template hexpr
      rw [String.toList_ofList] at hparts
      have hsame : body ++ rest = (found ++ ['\x60']) ++ behind := by simpa using hclosed
      obtain ⟨rfl, rfl⟩ := List.append_inj hsame (by simpa using hlength.symm)
      obtain rfl := found_interpolated (hbody.trans hclosed) hrest
      obtain ⟨first, more, hwritten, hare⟩ := bodyFrom_of_templateBody? hfound
      obtain rfl := eq_nil_of_written hwritten.symm hare.first
      rw [hwritten, pieces, pieces_written hare] at hparts
      cases more with
      | nil => cases hwritten
      | cons next more =>
        obtain ⟨code, text⟩ := next
        rw [laidPieces] at hparts
        cases hparts with
        | text hne => exact absurd rfl hne
        | empty hparts =>
          cases hparts with
          | code _ _ hparts =>
            obtain ⟨rfl, rfl⟩ := derived_nil hparts
            have hsource : source.toList ++ ['}'] = code ++ ['}'] := by
              simpa [written] using hwritten
            rw [(List.append_inj' hsource rfl).1]
            exact hare.tail.1
    · cases hscan

/-- An expression can be interpolated just when it is an interior, which it is if every template
string in it has an interior for its body. Then it is the only part, three bytes further on. -/
theorem parseExpression_interpolated (h : parseExpression source = .ok e) :
    (IsInterior source.toList ↔
      ∃ l part, parseExpression (interpolated source) = .ok (.template l [part])) ∧
    (∀ l part, parseExpression (interpolated source) = .ok (.template l [part]) →
      part = e.relocated (Location.moved 3)) ∧
    ((∀ ts, tokenize source 0 = .ok ts → ∀ t ∈ ts, ∀ body : String, t.token = .template body →
      IsInterior body.toList) → IsInterior source.toList) := by
  refine ⟨⟨fun hinterior => ⟨_, _, parseExpression_of_isInterior h hinterior⟩, ?_⟩, ?_,
    isInterior_of_parse h⟩
  · rintro ⟨l, part, hparsed⟩
    exact isInterior_of_interpolated hparsed
  · intro l part hparsed
    rw [parseExpression_of_isInterior h (isInterior_of_interpolated hparsed)] at hparsed
    obtain ⟨-, hparts⟩ := Node.template.inj (Except.ok.inj hparsed)
    exact (List.cons.inj hparts).1.symm

def sampleInterior : String :=
  "\x7ba: \x60x $\x7b\x7bb: '\x7d'\x7d\x7d\x60 + \"it's \x7d\x60\"\x7d"

theorem sampleInterior_interpolated :
    ∃ e, parseExpression sampleInterior = .ok e ∧ IsInterior sampleInterior.toList ∧
      ((IsInterior sampleInterior.toList ↔
        ∃ l part, parseExpression (interpolated sampleInterior) = .ok (.template l [part])) ∧
      (∀ l part, parseExpression (interpolated sampleInterior) = .ok (.template l [part]) →
        part = e.relocated (Location.moved 3)) ∧
      ((∀ ts, tokenize sampleInterior 0 = .ok ts → ∀ t ∈ ts, ∀ body : String,
        t.token = .template body → IsInterior body.toList) →
          IsInterior sampleInterior.toList)) := by
  have hparsed : (parseExpression sampleInterior).toOption.isSome = true := by decide +kernel
  obtain ⟨e, he⟩ := Option.isSome_iff_exists.1 hparsed
  rw [toOption_eq_some] at he
  exact ⟨e, he, by decide +kernel, parseExpression_interpolated he⟩

/-- A quote in a template string hides the end of the interpolation around it. -/
theorem apostrophe_hides_end :
    (parseExpression "\x60'\x60").toOption.isSome = true ∧
      parseExpression (interpolated "\x60'\x60") = .error ⟨.openTemplate, ⟨0, 1⟩⟩ :=
  ⟨by decide +kernel, rfl⟩

end VueToSan.Expr
