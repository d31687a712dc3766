import VueToSan.Proofs.BracedCode
import VueToSan.Proofs.NativeTokens
import VueToSan.Proofs.StableTokens

/-!
# Code in another spelling

An attribute is written with its blanks collapsed, and read with quotes put back for their escapes.
Outside of strings all that comes of it is that blanks behind a blank are gone, so the tokens stay
the same up to the texts of strings.
-/

namespace VueToSan.San

open VueToSan.Text VueToSan.Markup
open VueToSan.Expr (opensString stoppers dividers)

/-! ## Bodies of strings -/

theorem spanString_body {s : List Char} (h : isBody s = true) (rest : List Char) :
    Expr.spanString '\x27' (s ++ '\x27' :: rest) = (s, true) := by
  fun_induction isBody s with
  | case1 => exact Expr.spanString_quote (by decide) rest
  | case2 c cs ih =>
    rw [Bool.and_eq_true, bne_iff_ne] at h
    rw [List.cons_append, List.cons_append, Expr.spanString, if_neg h.1, ih h.2]
  | case3 c cs hslash ih =>
    simp only [Bool.and_eq_true, bne_iff_ne] at h
    obtain ⟨⟨⟨hne, hquote⟩, hline⟩, hcs⟩ := h
    rw [List.cons_append, Expr.spanString_char hne hquote hline, ih hcs]

theorem isBody_inj {s t cs ds : List Char} (hs : isBody s = true) (ht : isBody t = true)
    (h : s ++ '\x27' :: cs = t ++ '\x27' :: ds) : s = t ∧ cs = ds := by
  have hspan := spanString_body hs cs
  rw [h, spanString_body ht ds] at hspan
  obtain rfl := (Prod.mk.inj hspan).1
  exact ⟨rfl, (List.cons.inj (List.append_cancel_left h)).2⟩

/-! ## Other spellings -/

/-- A text in which strings have other bodies and blanks behind a blank are left out. -/
inductive Respelled : List Char → List Char → Prop
  | nil : Respelled [] []
  | char {c : Char} {cs ds : List Char} : opensString c = false → Respelled cs ds →
      Respelled (c :: cs) (c :: ds)
  | blank {cs ds : List Char} : Respelled (' ' :: cs) ds → Respelled (' ' :: ' ' :: cs) ds
  | string {s t cs ds : List Char} : isBody s = true → isBody t = true → Respelled cs ds →
      Respelled ('\x27' :: (s ++ '\x27' :: cs)) ('\x27' :: (t ++ '\x27' :: ds))

namespace Respelled

variable {cs ds : List Char}

theorem crosses {d e : Nat} (h : Respelled cs ds) (hcs : Crosses d cs e) : Crosses d ds e := by
  induction h generalizing d e with
  | nil => exact hcs
  | char hopen _ ih =>
    cases hcs with
    | plain hc hrest => exact .plain hc (ih hrest)
    | opening hrest => exact .opening (ih hrest)
    | closing hrest => exact .closing (ih hrest)
    | string _ _ => cases hopen
  | blank _ ih =>
    cases hcs with
    | plain _ hrest => exact ih hrest
  | @string s t cs ds hs ht _ ih =>
    generalize htext : '\x27' :: (s ++ '\x27' :: cs) = text at hcs
    cases hcs with
    | nil => cases htext
    | plain hc _ =>
      obtain ⟨rfl, -⟩ := List.cons.inj htext
      cases hc
    | opening _ => cases htext
    | closing _ => cases htext
    | string hbody hrest =>
      obtain ⟨-, rfl⟩ := isBody_inj hs hbody (List.cons.inj htext).2
      exact .string ht (ih hrest)

theorem append {front : List Char} (hfront : ∀ c ∈ front, opensString c = false)
    (h : Respelled cs ds) : Respelled (front ++ cs) (front ++ ds) := by
  induction front with
  | nil => exact h
  | cons c front ih =>
    rw [List.forall_mem_cons] at hfront
    exact .char hfront.1 (ih hfront.2)

theorem head? (h : Respelled cs ds) : ds.head? = cs.head? := by
  induction h with
  | nil => rfl
  | char => rfl
  | blank _ ih => exact ih
  | string => rfl

/-- The texts are the same up to a place where tokens stop. -/
theorem split (h : Respelled cs ds) : ∃ front a b, cs = front ++ a ∧ ds = front ++ b ∧
    (∀ c ∈ front, opensString c = false) ∧ Respelled a b ∧ ∀ c ∈ a.head?, c ∈ stoppers := by
  induction h with
  | nil => exact ⟨[], [], [], rfl, rfl, by simp, .nil, by simp⟩
  | @char c cs ds hopen _ ih =>
    obtain ⟨front, a, b, rfl, rfl, hfront, hab, hstop⟩ := ih
    exact ⟨c :: front, a, b, rfl, rfl, List.forall_mem_cons.2 ⟨hopen, hfront⟩, hab, hstop⟩
  | blank h _ => exact ⟨[], _, _, rfl, rfl, by simp, .blank h, by simp [stoppers, dividers]⟩
  | string hs ht h _ => exact ⟨[], _, _, rfl, rfl, by simp, .string hs ht h, by simp [stoppers]⟩

end Respelled

end VueToSan.San

namespace VueToSan.Expr

open VueToSan.Text VueToSan.San

/-! ## Tokens of another spelling -/

theorem scans_at {c : Char} {body rest : List Char} {t : Token}
    (h : scan c (body ++ rest) = .token t body.length) : Scans c body rest t := by
  obtain ⟨word, behind, htext, hlength, hscans⟩ := scans_of_scan h
  obtain ⟨rfl, rfl⟩ := List.append_inj htext hlength.symm
  exact hscans

theorem scan_front {c : Char} (hc : opensString c = false) {rest : List Char}
    (hrest : ∀ d ∈ rest.head?, d ∈ stoppers) (front : List Char) :
    scan c (front ++ rest) = scan c front := by
  cases rest with
  | nil => rw [List.append_nil]
  | cons d rest => exact scan_stopper hc (hrest d rfl) front rest

theorem scans_respelled {c : Char} {body rest ds : List Char} {t : Token}
    (h : Scans c body rest t) (hc : opensString c = false) (hds : Respelled (body ++ rest) ds) :
    ∃ behind, ds = body ++ behind ∧ Respelled rest behind ∧ Scans c body behind t := by
  obtain ⟨front, a, b, hsource, rfl, hfront, hab, ha⟩ := hds.split
  have hb : ∀ d ∈ b.head?, d ∈ stoppers := hab.head? ▸ ha
  have hscan := h.scan rest List.prefix_rfl
  rw [hsource, scan_front hc ha] at hscan
  -- The token ends in front of the stopper.
  obtain ⟨word, more, rfl, hlength, -⟩ := scans_of_scan hscan
  rw [List.append_assoc] at hsource
  obtain ⟨rfl, rfl⟩ := List.append_inj hsource hlength.symm
  refine ⟨more ++ b, List.append_assoc _ _ _, hab.append fun d hd =>
    hfront d (List.mem_append_right body hd), scans_at ?_⟩
  rw [← List.append_assoc, scan_front hc hb, hscan]

/-- A token without the text of a string. -/
def Token.blind : Token → Token
  | .string _ => .string ""
  | t => t

theorem areNative_blind (depth : Nat) (dotted : Bool) (ts : List Token) :
    areNative depth dotted (ts.map Token.blind) = areNative depth dotted ts := by
  induction ts generalizing depth dotted with
  | nil => rfl
  | cons t ts ih =>
    have hcolon : startsColon (ts.map Token.blind) = startsColon ts := by
      cases ts with
      | nil => rfl
      | cons u ts =>
        rcases u with _ | _ | _ | _ | _ | q
        case punct => cases q <;> rfl
        all_goals rfl
    rw [List.map_cons, areNative, areNative, hcolon, ih]
    cases t <;> rfl

theorem scan_body {s : List Char} (h : isBody s = true) (rest : List Char) :
    scan '\x27' (s ++ '\x27' :: rest) =
      .token (.string (String.ofList (unescapeChars s))) (s.length + 1) := by
  have hspan := spanString_body h rest
  rw [scan, if_neg (by decide), if_pos (.inl rfl), scanString, hspan]

theorem Lexed.respelled {pos : Nat} {cs ds : List Char} {ts : List Lexeme} (hcs : Lexed pos cs ts)
    (h : Respelled cs ds) (start : Nat) :
    ∃ us, Lexed start ds us ∧ (tokens us).map Token.blind = (tokens ts).map Token.blind := by
  induction hcs generalizing ds start with
  | nil =>
    cases h
    exact ⟨[], .nil, rfl⟩
  | @space pos c cs ts hsep _ ih =>
    generalize htext : c :: cs = text at h
    cases h with
    | nil => cases htext
    | char _ h =>
      obtain ⟨rfl, rfl⟩ := List.cons.inj htext
      obtain ⟨us, hus, hsame⟩ := ih h (start + c.utf8Size)
      exact ⟨us, .space hsep hus, hsame⟩
    | blank h =>
      obtain ⟨-, rfl⟩ := List.cons.inj htext
      exact ih h start
    | string _ _ _ =>
      obtain ⟨rfl, -⟩ := List.cons.inj htext
      cases hsep
  | @token pos c body rest t ts hsep hscans _ ih =>
    generalize htext : c :: (body ++ rest) = text at h
    cases h with
    | nil => cases htext
    | char hopen h =>
      obtain ⟨rfl, rfl⟩ := List.cons.inj htext
      obtain ⟨behind, rfl, hbehind, hagain⟩ := scans_respelled hscans hopen h
      obtain ⟨us, hus, hsame⟩ := ih hbehind (start + byteLength (c :: body))
      refine ⟨_, .token hsep hagain hus, ?_⟩
      rw [tokens_cons, tokens_cons, List.map_cons, List.map_cons, hsame]
    | blank _ =>
      obtain ⟨rfl, -⟩ := List.cons.inj htext
      cases hsep
    | @string s s' cs ds hs hs' h =>
      obtain ⟨rfl, hbody⟩ := List.cons.inj htext
      have hscan := hscans.scan rest List.prefix_rfl
      rw [hbody, scan_body hs] at hscan
      obtain ⟨rfl, hlength⟩ := Scanned.token.inj hscan
      have hsplit : body ++ rest = (s ++ ['\x27']) ++ cs := by rw [hbody, List.append_assoc]; rfl
      obtain ⟨rfl, rfl⟩ := List.append_inj hsplit (by simp [← hlength])
      have hagain : Scans '\x27' (s' ++ ['\x27']) ds (.string (String.ofList (unescapeChars s'))) := by
        apply scans_at
        rw [List.append_assoc, List.singleton_append, scan_body hs', List.length_append]
        rfl
      obtain ⟨us, hus, hsame⟩ := ih h (start + byteLength ('\x27' :: (s' ++ ['\x27'])))
      have hnext := Lexed.token hsep hagain hus
      rw [List.append_assoc, List.singleton_append] at hnext
      refine ⟨_, hnext, ?_⟩
      rw [tokens_cons, tokens_cons, List.map_cons, List.map_cons, hsame]
      rfl

theorem IsNative.respelled {cs ds : List Char} (hcs : IsNative cs) (h : Respelled cs ds) :
    IsNative ds := by
  obtain ⟨ts, hts, hnative⟩ := hcs
  obtain ⟨us, hus, hsame⟩ := hts.respelled h 0
  refine ⟨us, hus, ?_⟩
  rw [← areNative_blind, hsame, areNative_blind, hnative]

end VueToSan.Expr

namespace VueToSan.San

open VueToSan.Text VueToSan.Markup
open VueToSan.Expr (opensString)

/-! ## Collapsed blanks -/

theorem isBody_cons {c : Char} {s : List Char}
    (hc : (c != '\\' && c != '\x27' && c != '\n') = true) (hs : isBody s = true) :
    isBody (c :: s) = true := by
  rw [isBody]
  · rw [hs, Bool.and_true, hc]
  · rintro d ds rfl
    cases hc

theorem isBody_collapseFrom {s : List Char} (h : isBody s = true) (inRun : Bool) :
    isBody (collapseFrom inRun s) = true := by
  fun_induction isBody s generalizing inRun with
  | case1 => rfl
  | case2 c cs ih =>
    rw [Bool.and_eq_true] at h
    rw [collapseFrom, if_neg (by decide), collapseFrom]
    split
    · exact ih h.2 true
    · rw [isBody, ih h.2, h.1]
      rfl
  | case3 c cs hslash ih =>
    rw [Bool.and_eq_true] at h
    obtain ⟨hc, hcs⟩ := h
    rw [collapseFrom]
    split
    · split
      · exact ih hcs true
      · exact isBody_cons rfl (ih hcs true)
    · exact isBody_cons hc (ih hcs false)

theorem opensString_plain {c : Char} (h : isPlainChar c = true) : opensString c = false := by
  simp only [isPlainChar, Bool.and_eq_true, Bool.not_eq_true'] at h
  exact h.1.1.1.1

theorem Respelled.visible {c : Char} {cs : List Char} (hopen : opensString c = false)
    (hc : isBlank c = false) (h : Respelled cs (collapse cs)) (inRun : Bool) :
    Respelled (c :: cs) (collapseFrom inRun (c :: cs)) := by
  rw [collapseFrom, hc]
  exact .char hopen h

/-- Blanks behind a blank are left out at the start too. -/
theorem Crosses.collapsed {d e : Nat} {cs : List Char} (h : Crosses d cs e) :
    Respelled cs (collapse cs) ∧ Respelled (' ' :: cs) (' ' :: collapseFrom true cs) := by
  induction h with
  | nil => exact ⟨.nil, .char rfl .nil⟩
  | @plain d e c cs hc _ ih =>
    have hopen := opensString_plain hc
    cases hblank : isBlank c with
    | false => exact ⟨.visible hopen hblank ih.1 false, .char rfl (.visible hopen hblank ih.1 true)⟩
    | true =>
      obtain rfl : c = ' ' := by
        rw [isPlainChar, hblank, Bool.and_eq_true] at hc
        simpa using hc.2
      exact ⟨ih.2, .blank ih.2⟩
  | opening _ ih =>
    exact ⟨.visible rfl (by decide) ih.1 false, .char rfl (.visible rfl (by decide) ih.1 true)⟩
  | closing _ ih =>
    exact ⟨.visible rfl (by decide) ih.1 false, .char rfl (.visible rfl (by decide) ih.1 true)⟩
  | @string d e s cs hs _ ih =>
    have hsame : ∀ inRun, collapseFrom inRun ('\x27' :: (s ++ '\x27' :: cs)) =
        '\x27' :: (collapse s ++ '\x27' :: collapse cs) := by
      intro inRun
      rw [collapseFrom, if_neg (by decide)]
      have hquote : collapse ('\x27' :: cs) = '\x27' :: collapse cs := by
        rw [collapse, collapseFrom, if_neg (by decide)]
        rfl
      have hsplit := collapse_append (a := s) (b := '\x27' :: cs) (.inr (by simp; decide))
      rw [hquote] at hsplit
      rw [← hsplit]
      rfl
    have hrest := Respelled.string hs (isBody_collapseFrom hs false) ih.1
    refine ⟨?_, ?_⟩
    · rw [collapse, hsame]
      exact hrest
    · rw [hsame]
      exact .char rfl hrest

/-! ## Escaped quotes -/

theorem unescaped_cases (c : Char) (cs : List Char) :
    (∃ rest, c = '&' ∧ cs = "quot;".toList ++ rest ∧ unescaped (c :: cs) = '\x22' :: unescaped rest) ∨
      unescaped (c :: cs) = c :: unescaped cs := by
  cases hp : "&quot;".toList.isPrefixOf (c :: cs) with
  | false => exact .inr (unescaped_cons hp)
  | true =>
    obtain ⟨rest, hrest⟩ := List.isPrefixOf_iff_prefix.1 hp
    obtain ⟨rfl, rfl⟩ : '&' = c ∧ "quot;".toList ++ rest = cs := by simpa using hrest
    exact .inl ⟨rest, rfl, rfl, unescaped_entity rest⟩

theorem isBody_behind_entity {rest : List Char}
    (h : isBody (unescaped ("quot;".toList ++ rest)) = true) : isBody (unescaped rest) = true := by
  simpa [unescaped_cons, List.isPrefixOf, isBody] using h

theorem isBody_unescaped {s : List Char} (h : isBody s = true) : isBody (unescaped s) = true := by
  fun_induction isBody s with
  | case1 => rfl
  | case2 c cs ih =>
    rw [Bool.and_eq_true] at h
    rw [unescaped_cons (by simp [List.isPrefixOf])]
    rcases unescaped_cases c cs with ⟨rest, -, rfl, htext⟩ | htext
    · rw [htext]
      exact isBody_behind_entity (ih h.2)
    · rw [htext, isBody, ih h.2, h.1]
      rfl
  | case3 c cs hslash ih =>
    rw [Bool.and_eq_true] at h
    rcases unescaped_cases c cs with ⟨rest, -, rfl, htext⟩ | htext
    · rw [htext]
      exact isBody_cons rfl (isBody_behind_entity (ih h.2))
    · rw [htext]
      exact isBody_cons h.1 (ih h.2)

theorem Crosses.split_unquoted {d e : Nat} {front rest : List Char} (hfront : '\x27' ∉ front)
    (h : Crosses d (front ++ rest) e) : ∃ m, Crosses d front m ∧ Crosses m rest e := by
  induction front generalizing d with
  | nil => exact ⟨d, .nil, h⟩
  | cons c front ih =>
    rw [List.mem_cons, not_or] at hfront
    generalize htext : c :: front ++ rest = text at h
    cases h with
    | nil => cases htext
    | plain hc h =>
      obtain ⟨rfl, rfl⟩ := List.cons.inj htext
      obtain ⟨m, hm, hrest⟩ := ih hfront.2 h
      exact ⟨m, .plain hc hm, hrest⟩
    | opening h =>
      obtain ⟨rfl, rfl⟩ := List.cons.inj htext
      obtain ⟨m, hm, hrest⟩ := ih hfront.2 h
      exact ⟨m, .opening hm, hrest⟩
    | closing h =>
      obtain ⟨rfl, rfl⟩ := List.cons.inj htext
      obtain ⟨m, hm, hrest⟩ := ih hfront.2 h
      exact ⟨m, .closing hm, hrest⟩
    | string _ _ => exact absurd (List.cons.inj htext).1.symm hfront.1

/-- No semicolon stands outside of strings. -/
theorem not_crosses_semicolon {d e : Nat} {front rest : List Char}
    (hfront : '\x27' ∉ front) : ¬Crosses d (front ++ ';' :: rest) e := by
  intro h
  obtain ⟨m, -, hrest⟩ := h.split_unquoted hfront
  cases hrest with
  | plain hc _ => cases hc

theorem Crosses.unescaped {d e : Nat} {cs : List Char} (h : Crosses d cs e) :
    Respelled cs (unescaped cs) := by
  have hother : ∀ {c : Char} {cs : List Char}, c ≠ '&' →
      San.unescaped (c :: cs) = c :: San.unescaped cs := fun {c} {cs} hc =>
    unescaped_cons (by simp [List.isPrefixOf, hc.symm])
  induction h with
  | nil => exact .nil
  | @plain d e c cs hc hcs ih =>
    rcases unescaped_cases c cs with ⟨rest, -, rfl, -⟩ | htext
    · exact absurd hcs (@not_crosses_semicolon _ _ "quot".toList _ (by decide))
    · rw [htext]
      exact .char (opensString_plain hc) ih
  | opening _ ih =>
    rw [hother (by decide)]
    exact .char rfl ih
  | closing _ ih =>
    rw [hother (by decide)]
    exact .char rfl ih
  | @string d e s cs hs _ ih =>
    have hsplit : San.unescaped (s ++ '\x27' :: cs) =
        San.unescaped s ++ '\x27' :: San.unescaped cs :=
      replace_append_cons entity_ne_nil (by decide) s cs
    rw [hother (by decide), hsplit]
    exact .string hs (isBody_unescaped hs) ih

/-! ## Parts of code -/

/-- A token that starts no string holds no quotes. -/
theorem unquoted_of_scan {c : Char} {body : List Char} {t : Expr.Token}
    (hc : opensString c = false) (h : Expr.scan c body = .token t body.length) : '\x27' ∉ body := by
  intro hmem
  obtain ⟨front, rest, rfl⟩ := List.append_of_mem hmem
  rw [Expr.scan_stopper hc (by simp [Expr.stoppers])] at h
  obtain ⟨word, more, rfl, hlength, -⟩ := Expr.scans_of_scan h
  simp only [List.length_append, List.length_cons] at hlength
  omega

namespace Crosses

variable {d e : Nat}

theorem split_token {c : Char} {body rest : List Char} {t : Expr.Token}
    (hscan : Expr.scan c body = .token t body.length) (h : Crosses d (c :: (body ++ rest)) e) :
    ∃ m, Crosses d (c :: body) m ∧ Crosses m rest e := by
  cases hc : opensString c with
  | false =>
    have hunquoted : '\x27' ∉ c :: body := by
      rw [List.mem_cons, not_or]
      refine ⟨?_, unquoted_of_scan hc hscan⟩
      rintro rfl
      cases hc
    exact split_unquoted hunquoted h
  | true =>
    generalize htext : c :: (body ++ rest) = text at h
    cases h with
    | nil => cases htext
    | plain hplain _ =>
      obtain ⟨rfl, -⟩ := List.cons.inj htext
      rw [opensString_plain hplain] at hc
      cases hc
    | opening _ =>
      obtain ⟨rfl, -⟩ := List.cons.inj htext
      cases hc
    | closing _ =>
      obtain ⟨rfl, -⟩ := List.cons.inj htext
      cases hc
    | @string _ _ s cs hs h =>
      obtain ⟨rfl, hbody⟩ := List.cons.inj htext
      have hwhole : Expr.scan '\x27' (body ++ rest) = .token t body.length :=
        Expr.scanString_append (by decide) hscan rest
      rw [hbody, Expr.scan_body hs] at hwhole
      obtain ⟨-, hlength⟩ := Expr.Scanned.token.inj hwhole
      have hsplit : body ++ rest = (s ++ ['\x27']) ++ cs := by
        rw [hbody, List.append_assoc]
        rfl
      obtain ⟨rfl, rfl⟩ := List.append_inj hsplit (by simp [← hlength])
      exact ⟨d, .string hs .nil, h⟩

theorem split {pos : Nat} {front rest : List Char} {ts : List Expr.Lexeme}
    (hfront : Expr.Lexed pos front ts) (h : Crosses d (front ++ rest) e) :
    ∃ m, Crosses d front m ∧ Crosses m rest e := by
  induction hfront generalizing d with
  | nil => exact ⟨d, .nil, h⟩
  | @space pos c cs ts hsep _ ih =>
    have hc : '\x27' ∉ [c] := by
      rw [List.mem_singleton]
      rintro rfl
      cases hsep
    obtain ⟨m, hc, hcs⟩ := split_unquoted hc h
    obtain ⟨k, hfront, hrest⟩ := ih hcs
    exact ⟨k, hc.append hfront, hrest⟩
  | token _ hscans _ ih =>
    have hscan := hscans.scan [] List.nil_prefix
    rw [List.append_nil] at hscan
    rw [List.cons_append, List.append_assoc] at h
    obtain ⟨m, htoken, hcs⟩ := h.split_token hscan
    obtain ⟨k, hfront, hrest⟩ := ih hcs
    exact ⟨k, htoken.append hfront, hrest⟩

end Crosses

/-- A part of code in native tokens. San reads it as an admitted expression in every spelling, if it
reads it at all. -/
structure IsCodePart (cs : List Char) : Prop where
  crosses : ∃ d e, Crosses d cs e
  native : Expr.IsNative cs

namespace IsCodePart

variable {cs ds : List Char}

theorem respelled (h : IsCodePart cs) (hds : Respelled cs ds) : IsCodePart ds where
  crosses := by
    obtain ⟨d, e, hcs⟩ := h.crosses
    exact ⟨d, e, hds.crosses hcs⟩
  native := h.native.respelled hds

theorem collapsed (h : IsCodePart cs) : IsCodePart (collapse cs) := by
  obtain ⟨d, e, hcs⟩ := h.crosses
  exact h.respelled hcs.collapsed.1

theorem unescaped (h : IsCodePart cs) : IsCodePart (unescaped cs) := by
  obtain ⟨d, e, hcs⟩ := h.crosses
  exact h.respelled hcs.unescaped

end IsCodePart

end VueToSan.San
