import VueToSan.Expr.Lexer
import VueToSan.Proofs.NumberText

/-!
# Lexing spelled tokens

The spelling of a token is cut off as that token when what follows does not go on with it: a word or
a number ends before a character that no identifier holds, a mark before one that makes no longer
mark of it.
-/

namespace VueToSan.Expr

open VueToSan.Text

def LexesTo (cs rest : List Char) (ts : List Token) : Prop :=
  ∀ pos, ∃ ls : List Lexeme, ls.map (·.token) = ts ∧
    tokenizeFrom pos 0 (cs ++ rest) =
      (tokenizeFrom (pos + byteLength cs) 0 rest).map (ls ++ ·)

theorem LexesTo.nil (rest : List Char) : LexesTo [] rest [] := by
  intro pos
  refine ⟨[], rfl, ?_⟩
  cases h : tokenizeFrom pos 0 rest <;> simp [h, Except.map]

theorem LexesTo.append {cs ds rest : List Char} {ts us : List Token}
    (hcs : LexesTo cs (ds ++ rest) ts) (hds : LexesTo ds rest us) :
    LexesTo (cs ++ ds) rest (ts ++ us) := by
  intro pos
  obtain ⟨ls, hls, hfirst⟩ := hcs pos
  obtain ⟨ks, hks, hsecond⟩ := hds (pos + byteLength cs)
  refine ⟨ls ++ ks, by rw [List.map_append, hls, hks], ?_⟩
  rw [List.append_assoc, hfirst, hsecond, byteLength_append, Nat.add_assoc]
  cases tokenizeFrom (pos + (byteLength cs + byteLength ds)) 0 rest <;> simp [Except.map]

theorem LexesTo.separator {c : Char} (hc : isSeparator c = true) (rest : List Char) :
    LexesTo [c] rest [] := by
  intro pos
  refine ⟨[], rfl, ?_⟩
  have hstep : tokenizeFrom pos 0 ([c] ++ rest) = tokenizeFrom (pos + byteLength [c]) 0 rest := by
    rw [List.singleton_append, tokenizeFrom, if_pos hc]
    rfl
  rw [hstep]
  cases tokenizeFrom (pos + byteLength [c]) 0 rest <;> simp [Except.map]

theorem LexesTo.space (rest : List Char) : LexesTo [' '] rest [] := LexesTo.separator rfl rest

theorem tokenizeFrom_skip (pos : Nat) (body rest : List Char) :
    tokenizeFrom pos body.length (body ++ rest) =
      tokenizeFrom (pos + byteLength body) 0 rest := by
  induction body generalizing pos with
  | nil => rfl
  | cons c body ih =>
    rw [List.cons_append, List.length_cons, tokenizeFrom, ih, byteLength_cons, Nat.add_assoc]

theorem tokenizeFrom_token {c : Char} {body rest : List Char} {t : Token}
    (hc : isSeparator c = false) (hscan : scan c (body ++ rest) = .token t body.length)
    (pos : Nat) :
    tokenizeFrom pos 0 (c :: body ++ rest) =
      (tokenizeFrom (pos + byteLength (c :: body)) 0 rest).map
        (⟨t, ⟨pos, pos + byteLength (c :: body)⟩⟩ :: ·) := by
  rw [List.cons_append, tokenizeFrom]
  simp only [hc, Bool.false_eq_true, if_false, hscan, tokenizeFrom_skip, byteLength_cons,
    Nat.add_assoc]
  cases tokenizeFrom (pos + (c.utf8Size + byteLength body)) 0 rest with
  | error e => rfl
  | ok ls => simp [Except.map]

theorem lexesTo_token {c : Char} {body rest : List Char} {t : Token} (hc : isSeparator c = false)
    (hscan : scan c (body ++ rest) = .token t body.length) : LexesTo (c :: body) rest [t] :=
  fun pos => ⟨[⟨t, ⟨pos, pos + byteLength (c :: body)⟩⟩], rfl, tokenizeFrom_token hc hscan pos⟩

/-! ## Words -/

def isWord (name : String) : Bool :=
  match name.toList with
  | c :: cs => isIdentStart c && cs.all isIdentPart
  | [] => false

theorem isIdentStart_iff {c : Char} :
    isIdentStart c = true ↔ isLetter c = true ∨ c = '_' ∨ c = '$' := by
  simp [isIdentStart, or_assoc]

theorem visible_of_isIdentStart {c : Char} (h : isIdentStart c = true) :
    33 ≤ c.toNat ∧ c.toNat ≤ 126 := by
  rcases isIdentStart_iff.1 h with hletter | rfl | rfl
  · rw [isLetter_iff] at hletter
    omega
  · decide
  · decide

theorem isSeparator_of_visible {c : Char} (h : 33 ≤ c.toNat) : isSeparator c = false := by
  rw [Bool.eq_false_iff]
  intro hc
  simp only [isSeparator, Bool.or_eq_true, beq_iff_eq, or_assoc] at hc
  rcases hc with rfl | rfl | rfl | rfl | rfl <;> exact absurd h (by decide)

theorem exists_of_isWord {name : String} (h : isWord name = true) :
    ∃ c cs, name.toList = c :: cs ∧ isIdentStart c = true ∧ ∀ d ∈ cs, isIdentPart d = true := by
  unfold isWord at h
  split at h
  · rename_i c cs hcs
    rw [Bool.and_eq_true, List.all_eq_true] at h
    exact ⟨c, cs, hcs, h⟩
  · cases h

theorem lexesTo_word {name : String} (hname : isWord name = true) {rest : List Char}
    (hrest : ∀ c ∈ rest.head?, isIdentPart c = false) :
    LexesTo name.toList rest [wordToken name] := by
  obtain ⟨c, cs, hcs, hstart, hpart⟩ := exists_of_isWord hname
  have htake : (cs ++ rest).takeWhile isIdentPart = cs := takeWhile_append_stop hpart hrest
  rw [hcs]
  refine lexesTo_token (isSeparator_of_visible (visible_of_isIdentStart hstart).1) ?_
  simp only [scan, hstart, if_true, htake, List.length_cons, Nat.add_sub_cancel]
  rw [← hcs, String.ofList_toList]

/-! ## Strings -/

theorem spanString_plain {c : Char} (hquote : c ≠ '\x27') (hslash : c ≠ '\\') (hline : c ≠ '\n')
    (cs : List Char) :
    spanString '\x27' (c :: cs) = (c :: (spanString '\x27' cs).1, (spanString '\x27' cs).2) := by
  rw [spanString]
  · simp only [hquote, hline, if_false]
  · rintro rfl
    contradiction
  · rintro d ds rfl
    contradiction

theorem spanString_escaped {c : Char} (hline : c ≠ '\n') (cs : List Char) :
    spanString '\x27' ('\\' :: c :: cs) =
      ('\\' :: c :: (spanString '\x27' cs).1, (spanString '\x27' cs).2) := by
  simp only [spanString, hline, if_false]

theorem spanString_quoteChar (c : Char) (cs : List Char) :
    spanString '\x27' (quoteChar c ++ cs) =
      (quoteChar c ++ (spanString '\x27' cs).1, (spanString '\x27' cs).2) := by
  unfold quoteChar
  split_ifs with hslash hquote hline hreturn
  · exact spanString_escaped (by decide) cs
  · exact spanString_escaped (by decide) cs
  · exact spanString_escaped (by decide) cs
  · exact spanString_escaped (by decide) cs
  · exact spanString_plain hquote hslash hline cs

theorem spanString_quoted (cs rest : List Char) :
    spanString '\x27' (cs.flatMap quoteChar ++ '\x27' :: rest) = (cs.flatMap quoteChar, true) := by
  induction cs with
  | nil => simp [spanString]
  | cons c cs ih => rw [List.flatMap_cons, List.append_assoc, spanString_quoteChar, ih]

theorem unescapeFrom_quoteChar (c : Char) (cs : List Char) :
    unescapeFrom 0 (quoteChar c ++ cs) = c :: unescapeFrom 0 cs := by
  unfold quoteChar
  split_ifs with hslash hquote hline hreturn
  · subst hslash; rfl
  · subst hquote; rfl
  · subst hline; rfl
  · subst hreturn; rfl
  · simp [unescapeFrom, hslash]

theorem unescapeChars_quoted (cs : List Char) : unescapeChars (cs.flatMap quoteChar) = cs := by
  unfold unescapeChars
  induction cs with
  | nil => rfl
  | cons c cs ih => rw [List.flatMap_cons, unescapeFrom_quoteChar, ih]

theorem scan_quote (s : String) (rest : List Char) :
    scan '\x27' (s.toList.flatMap quoteChar ++ ['\x27'] ++ rest) =
      .token (.string s) (s.toList.flatMap quoteChar ++ ['\x27']).length := by
  have hspan := spanString_quoted s.toList rest
  have hscan : scan '\x27' (s.toList.flatMap quoteChar ++ ['\x27'] ++ rest) =
      scanString '\x27' (s.toList.flatMap quoteChar ++ '\x27' :: rest) := by
    rw [List.append_assoc]
    rfl
  rw [hscan, scanString, hspan]
  simp [unescapeChars_quoted]

theorem lexesTo_quote (s : String) (rest : List Char) :
    LexesTo (quote s).toList rest [.string s] := by
  rw [quote, String.toList_ofList, quoteChars]
  exact lexesTo_token rfl (scan_quote s rest)

/-! ## Numbers -/

theorem hexDigits?_none {c : Char} {cs : List Char} (h : ∀ d ∈ cs.head?, d ≠ 'x' ∧ d ≠ 'X') :
    hexDigits? (c :: cs) = none := by
  unfold hexDigits?
  split
  · rename_i d ds heq
    obtain ⟨-, rfl⟩ := List.cons.inj heq
    obtain ⟨hx, hX⟩ := h d rfl
    simp [hx, hX]
  · rfl

def opensString (c : Char) : Bool := c == '\x27' || c == '\x22' || c == '\x60'

structure IsPlainStart (c : Char) : Prop where
  ident : isIdentStart c = false
  single : c ≠ '\x27'
  double : c ≠ '\x22'
  back : c ≠ '\x60'

theorem scan_plain {c : Char} (h : IsPlainStart c) (cs : List Char) :
    scan c cs = (scanNumber? (c :: cs)).getD (scanPunct (c :: cs)) := by
  simp [scan, h.ident, h.single, h.double, h.back]

theorem isIdentStart_of_isDigit {c : Char} (h : isDigit c = true) : isIdentStart c = false := by
  rw [isDigit_iff] at h
  rw [Bool.eq_false_iff]
  intro hc
  rcases isIdentStart_iff.1 hc with hl | rfl | rfl
  · rw [isLetter_iff] at hl
    omega
  · exact absurd h (by decide)
  · exact absurd h (by decide)

theorem endsNumeral_of_stop {rest : List Char}
    (h : ∀ c ∈ rest.head?, isIdentPart c = false ∧ c ≠ '.') : Number.EndsNumeral rest := by
  intro c hc
  obtain ⟨hpart, hdot⟩ := h c hc
  simp only [isIdentPart, Bool.or_eq_false_iff] at hpart
  refine ⟨hpart.2, hdot, ?_, ?_⟩
  · rintro rfl
    exact absurd hpart.1 (by decide)
  · rintro rfl
    exact absurd hpart.1 (by decide)

theorem scan_numeral {c : Char} {tail rest : List Char} {n : Number.Numeral}
    (hspan : Number.spanNumeral (c :: tail ++ rest) = some (n, rest)) (hc : isDigit c = true)
    (htail : ∀ d ∈ tail.head?, d ≠ 'x' ∧ d ≠ 'X')
    (hrest : ∀ d ∈ rest.head?, isIdentPart d = false) :
    isSeparator c = false ∧ scan c (tail ++ rest) = .token (.number n.value) tail.length := by
  have hne : ∀ d, isDigit d = false → c ≠ d := by
    rintro d hd rfl
    rw [hc] at hd
    cases hd
  have hplain : IsPlainStart c := ⟨isIdentStart_of_isDigit hc, hne _ rfl, hne _ rfl, hne _ rfl⟩
  have hsep : isSeparator c = false := by
    rw [isDigit_iff] at hc
    exact isSeparator_of_visible (by omega)
  have hhex : hexDigits? (c :: (tail ++ rest)) = none := by
    refine hexDigits?_none fun d hd => ?_
    cases tail with
    | nil =>
      have hpart := hrest d hd
      refine ⟨?_, ?_⟩
      · rintro rfl
        exact absurd hpart (by decide)
      · rintro rfl
        exact absurd hpart (by decide)
    | cons e tail => exact htail d hd
  have hnum : scanNumber? (c :: (tail ++ rest)) = some (.token (.number n.value) tail.length) := by
    rw [List.cons_append] at hspan
    rw [scanNumber?, hhex]
    simp only [hspan]
    congr 2
    simp only [List.length_cons, List.length_append]
    omega
  rw [scan_plain hplain, hnum, Option.getD_some]
  exact ⟨hsep, rfl⟩

theorem lexesTo_numeral {cs rest : List Char} {n : Number.Numeral}
    (hspan : Number.spanNumeral (cs ++ rest) = some (n, rest))
    (hhead : ∃ c tail, cs = c :: tail ∧ isDigit c = true ∧ ∀ d ∈ tail.head?, d ≠ 'x' ∧ d ≠ 'X')
    (hrest : ∀ c ∈ rest.head?, isIdentPart c = false) : LexesTo cs rest [.number n.value] := by
  obtain ⟨c, tail, rfl, hc, htail⟩ := hhead
  obtain ⟨hsep, hscan⟩ := scan_numeral hspan hc htail hrest
  exact lexesTo_token hsep hscan

theorem lexesTo_number {cs : List Char} {x : Float} (h : Number.WritesNumber cs x)
    {rest : List Char} (hrest : ∀ c ∈ rest.head?, isIdentPart c = false ∧ c ≠ '.') :
    LexesTo cs rest [.number x] := by
  obtain ⟨n, rfl, hread⟩ := h.reads
  exact lexesTo_numeral (hread rest (endsNumeral_of_stop hrest)) h.head fun c hc => (hrest c hc).1

/-! ## Marks -/

namespace Punct

def successors : Punct → List Char
  | .bang | .notEq | .assign | .eqEq => ['=']
  | .lt => ['=', '<']
  | .gt => ['=', '>']
  | .shr => ['>']
  | .star => ['*']
  | .amp => ['&']
  | .pipe => ['|']
  | .question => ['?']
  | _ => []

theorem mem_all (p : Punct) : p ∈ all := by
  cases p <;> decide

theorem mem_successors {p q : Punct} {c : Char} {cs : List Char}
    (h : p.text.toList ++ c :: cs = q.text.toList) : c ∈ p.successors := by
  have hall : all.all (fun p => all.all fun q => !p.text.toList.isPrefixOf q.text.toList ||
      (q.text.toList.drop p.text.toList.length).head?.all p.successors.contains) = true := by
    decide +kernel
  rw [List.all_eq_true] at hall
  have hp := hall p p.mem_all
  rw [List.all_eq_true] at hp
  have hq := hp q q.mem_all
  have hpre : p.text.toList.isPrefixOf (p.text.toList ++ c :: cs) = true := by simp
  rw [← h, hpre] at hq
  simpa using hq

theorem pairwise_all : all.Pairwise fun p q => p.text.toList.isPrefixOf q.text.toList = false := by
  decide +kernel

theorem text_cases (p : Punct) :
    ∃ c cs, p.text.toList = c :: cs ∧ p.text.length = cs.length + 1 ∧
      (33 ≤ c.toNat ∧ c.toNat ≤ 126) ∧ IsPlainStart c ∧ isDigit c = false ∧
      (c = '.' → p = dot ∧ cs = []) := by
  cases p <;>
    exact ⟨_, _, rfl, rfl, by decide, ⟨by decide, by decide, by decide, by decide⟩, by decide⟩

end Punct

theorem find?_punct {p : Punct} {rest : List Char} (h : ∀ c ∈ rest.head?, c ∉ p.successors) :
    Punct.all.find? (·.text.toList.isPrefixOf (p.text.toList ++ rest)) = some p := by
  rw [List.find?_eq_some_iff_append]
  obtain ⟨before, after, hall⟩ := List.append_of_mem p.mem_all
  refine ⟨by simp, before, after, hall, fun q hq => ?_⟩
  have hpair := Punct.pairwise_all
  rw [hall, List.pairwise_append] at hpair
  have hbefore := hpair.2.2 q hq p List.mem_cons_self
  rw [Bool.eq_false_iff, ne_eq, List.isPrefixOf_iff_prefix] at hbefore
  rw [Bool.not_eq_true', Bool.eq_false_iff, ne_eq, List.isPrefixOf_iff_prefix]
  intro hpre
  -- Of two texts that start the same list, one starts the other.
  rcases List.prefix_or_prefix_of_prefix hpre (List.prefix_append _ rest) with hqp | ⟨tail, htail⟩
  · exact hbefore hqp
  · cases tail with
    | nil => exact hbefore (by rw [← htail, List.append_nil])
    | cons c tail =>
      rw [← htail, List.prefix_append_right_inj] at hpre
      obtain ⟨more, rfl⟩ := hpre
      exact h c rfl (Punct.mem_successors htail)

theorem spanNumeral_none {c : Char} {cs : List Char} (hc : isDigit c = false)
    (hdot : c = '.' → ∀ d ∈ cs.head?, isDigit d = false) : Number.spanNumeral (c :: cs) = none := by
  have htake : (c :: cs).takeWhile isDigit = [] := by simp [hc]
  have hdrop : (c :: cs).dropWhile isDigit = c :: cs := by simp [hc]
  unfold Number.spanNumeral
  rw [htake, hdrop]
  by_cases hpoint : c = '.'
  · subst hpoint
    have hfraction : cs.takeWhile isDigit = [] := by
      cases cs with
      | nil => rfl
      | cons d cs => simp [hdot rfl d rfl]
    simp [hfraction]
  · simp [hpoint]

theorem scanNumber?_none {c : Char} {cs : List Char} (hc : isDigit c = false)
    (hdot : c = '.' → ∀ d ∈ cs.head?, isDigit d = false) : scanNumber? (c :: cs) = none := by
  have hhex : hexDigits? (c :: cs) = none := by
    unfold hexDigits?
    split
    · rename_i d ds heq
      obtain ⟨rfl, -⟩ := List.cons.inj heq
      exact absurd hc (by decide)
    · rfl
  rw [scanNumber?, hhex, spanNumeral_none hc hdot]

theorem lexesTo_punct {p : Punct} {rest : List Char} (h : ∀ c ∈ rest.head?, c ∉ p.successors)
    (hdot : p = .dot → ∀ c ∈ rest.head?, isDigit c = false) :
    LexesTo p.text.toList rest [.punct p] := by
  have hfind := find?_punct h
  obtain ⟨c, cs, htext, hlength, hvisible, hplain, hdigit, hpoint⟩ := p.text_cases
  rw [htext] at hfind ⊢
  refine lexesTo_token (isSeparator_of_visible hvisible.1) ?_
  have hnone : scanNumber? (c :: (cs ++ rest)) = none := by
    refine scanNumber?_none hdigit fun hc d hd => ?_
    obtain ⟨rfl, rfl⟩ := hpoint hc
    exact hdot rfl d hd
  rw [scan_plain hplain, hnone, Option.getD_none, scanPunct, ← List.cons_append, hfind]
  simp [hlength]

/-! ## Boundaries -/

def isOpening (c : Char) : Bool :=
  isIdentPart c || [' ', '\x27', '(', '[', '{', '-', '+', '!'].contains c

def StartsOperand (cs : List Char) : Prop := ∃ c tail, cs = c :: tail ∧ isOpening c = true

theorem StartsOperand.append {cs : List Char} (h : StartsOperand cs) (ds : List Char) :
    StartsOperand (cs ++ ds) := by
  obtain ⟨c, tail, rfl, hc⟩ := h
  exact ⟨c, tail ++ ds, rfl, hc⟩

theorem isOpening_of_mem_successors {p : Punct} {c : Char} (h : c ∈ p.successors) :
    isOpening c = false := by
  have hall : p.successors.all (fun c => decide (isOpening c = false)) = true := by
    cases p <;> decide
  exact forall_of_all hall c h

theorem StartsOperand.not_mem_successors {cs : List Char} (h : StartsOperand cs) (p : Punct) :
    ∀ c ∈ cs.head?, c ∉ p.successors := by
  obtain ⟨d, tail, rfl, hd⟩ := h
  rintro c hc hmem
  obtain rfl : d = c := by simpa using hc
  rw [isOpening_of_mem_successors hmem] at hd
  cases hd

/-- What may follow an operand: no character of an identifier, and a dot only where `dot` allows
one. -/
def Stops (dot : Bool) (rest : List Char) : Prop :=
  ∀ c ∈ rest.head?, isIdentPart c = false ∧ (c = '.' → dot = true)

theorem Stops.nil (dot : Bool) : Stops dot [] := by
  intro c hc
  cases hc

theorem stops_punct {p : Punct} {dot : Bool} (hdot : p = .dot → dot = true) (rest : List Char) :
    Stops dot (p.text.toList ++ rest) := by
  obtain ⟨c, cs, htext, -, -, hplain, hdigit, hpoint⟩ := p.text_cases
  rw [htext]
  intro d hd
  obtain rfl : c = d := by simpa using hd
  exact ⟨by rw [isIdentPart, hplain.ident, hdigit, Bool.or_false], fun hc => hdot (hpoint hc).1⟩

/-- A text is cut into tokens in front of everything that may follow an operand. -/
def Lexes (dot : Bool) (cs : List Char) (ts : List Token) : Prop :=
  ∀ rest, Stops dot rest → LexesTo cs rest ts

theorem Lexes.nil (dot : Bool) : Lexes dot [] [] := fun rest _ => LexesTo.nil rest

theorem Lexes.append {dot : Bool} {cs ds : List Char} {ts us : List Token} (hcs : Lexes dot cs ts)
    (hds : Lexes dot ds us) (hstop : Stops dot ds) : Lexes dot (cs ++ ds) (ts ++ us) := by
  intro rest hrest
  refine (hcs (ds ++ rest) ?_).append (hds rest hrest)
  cases ds with
  | nil => exact hrest
  | cons c ds => exact hstop

theorem Lexes.space {dot : Bool} {cs : List Char} {ts : List Token} (h : Lexes dot cs ts) :
    Lexes dot (' ' :: cs) ts := fun rest hrest => (LexesTo.space (cs ++ rest)).append (h rest hrest)

theorem lexes_word {name : String} (h : isWord name = true) (dot : Bool) :
    Lexes dot name.toList [wordToken name] :=
  fun _ hrest => lexesTo_word h fun c hc => (hrest c hc).1

theorem lexes_quote (s : String) (dot : Bool) : Lexes dot (quote s).toList [.string s] :=
  fun rest _ => lexesTo_quote s rest

theorem lexes_number {cs : List Char} {x : Float} (h : Number.WritesNumber cs x) :
    Lexes false cs [.number x] := by
  refine fun rest hrest => lexesTo_number h fun c hc => ⟨(hrest c hc).1, ?_⟩
  intro hpoint
  cases (hrest c hc).2 hpoint

theorem startsOperand_word {name : String} (h : isWord name = true) :
    StartsOperand name.toList := by
  obtain ⟨c, cs, hcs, hstart, -⟩ := exists_of_isWord h
  exact ⟨c, cs, hcs, by simp [isOpening, isIdentPart, hstart]⟩

/-- A mark that no character makes longer, and that no digit makes a number. -/
def Punct.isLoose (p : Punct) : Bool := p.successors.isEmpty && p != .dot

theorem Lexes.mark {before after : Bool} {cs ds : List Char} {ts us : List Token} {p : Punct}
    (hcs : Lexes before cs ts) (hds : Lexes after ds us) (hp : p ≠ .dot)
    (hnext : p.isLoose = true ∨ StartsOperand ds) :
    Lexes after (cs ++ (p.text.toList ++ ds)) (ts ++ .punct p :: us) := by
  intro rest hrest
  have hmark : LexesTo p.text.toList (ds ++ rest) [.punct p] := by
    refine lexesTo_punct ?_ fun h => absurd h hp
    rcases hnext with hloose | hopens
    · rw [Punct.isLoose, Bool.and_eq_true, List.isEmpty_iff] at hloose
      simp [hloose.1]
    · exact (hopens.append rest).not_mem_successors p
  refine LexesTo.append ?_ (hmark.append (hds rest hrest))
  rw [List.append_assoc]
  exact hcs _ (stops_punct (fun h => absurd h hp) _)

theorem Lexes.member {dot : Bool} {cs : List Char} {ts : List Token} {name : String}
    (hcs : Lexes true cs ts) (hname : isWord name = true) :
    Lexes dot (cs ++ ('.' :: name.toList)) (ts ++ [.punct .dot, wordToken name]) := by
  intro rest hrest
  have hdot : LexesTo ['.'] (name.toList ++ rest) [.punct .dot] := by
    refine lexesTo_punct (((startsOperand_word hname).append rest).not_mem_successors .dot) ?_
    rintro - c hc
    obtain ⟨d, ds, hds, hstart, -⟩ := exists_of_isWord hname
    rw [hds] at hc
    obtain rfl : d = c := by simpa using hc
    rw [Bool.eq_false_iff]
    intro hdigit
    rw [isIdentStart_of_isDigit hdigit] at hstart
    cases hstart
  have hstop : Stops true ('.' :: name.toList ++ rest) :=
    stops_punct (p := .dot) (fun _ => rfl) (name.toList ++ rest)
  exact (hcs _ hstop).append (hdot.append (lexes_word hname dot rest hrest))

end VueToSan.Expr
