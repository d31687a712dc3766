import VueToSan.Proofs.CodeEdges
import VueToSan.Proofs.CodeRoundTrip

/-!
# Tokens and the text behind them

A token is made of the characters that it was read from, and its end is seen from at most a few
characters behind it. So it is read again when the text behind it is cut off anywhere.
-/

namespace VueToSan.Expr

open VueToSan.Text

def Token.weight : Token → Nat
  | .template body => body.toList.length + 1
  | _ => 1

/-- A token reaches from `c` to the end of `body`, also when the text behind it is cut off. -/
structure Scans (c : Char) (body rest : List Char) (t : Token) : Prop where
  scan : ∀ front, front <+: rest → scan c (body ++ front) = .token t body.length
  last : ∀ d ∈ (c :: body).getLast?, isBlank d = false
  weight : t.weight ≤ body.length + 1

/-! ## Runs -/

theorem mem_head?_front {front rest : List Char} (h : front <+: rest) :
    ∀ c ∈ front.head?, c ∈ rest.head? := by
  intro c hc
  obtain ⟨tail, rfl⟩ := h
  rw [List.head?_append]
  rw [Option.mem_def] at hc ⊢
  rw [hc, Option.some_or]

theorem head?_dropWhile {p : Char → Bool} {cs : List Char} :
    ∀ c ∈ (cs.dropWhile p).head?, p c = false := by
  intro c hc
  have hall := List.head?_dropWhile_not p cs
  rw [Option.mem_def] at hc
  rw [hc] at hall
  simpa using hall

theorem of_mem_takeWhile {p : Char → Bool} {cs : List Char} :
    ∀ c ∈ cs.takeWhile p, p c = true :=
  List.all_eq_true.1 List.all_takeWhile

theorem takeWhile_front {p : Char → Bool} {cs front : List Char} (h : front <+: cs.dropWhile p) :
    (cs.takeWhile p ++ front).takeWhile p = cs.takeWhile p :=
  takeWhile_append_stop of_mem_takeWhile fun c hc => head?_dropWhile c (mem_head?_front h c hc)

theorem dropWhile_front {p : Char → Bool} {cs front : List Char} (h : front <+: cs.dropWhile p) :
    (cs.takeWhile p ++ front).dropWhile p = front :=
  dropWhile_append_stop of_mem_takeWhile fun c hc => head?_dropWhile c (mem_head?_front h c hc)

/-! ## Words -/

theorem scans_word {c : Char} (hc : isIdentStart c = true) (cs : List Char) :
    Scans c (cs.takeWhile isIdentPart) (cs.dropWhile isIdentPart)
      (wordToken (String.ofList (c :: cs.takeWhile isIdentPart))) where
  scan front hfront := by
    simp only [scan, hc, if_true, takeWhile_front hfront, List.length_cons, Nat.add_sub_cancel]
  last d hd := by
    rcases List.mem_cons.1 (List.mem_of_getLast? hd) with rfl | hmem
    · exact isBlank_of_visible (visible_of_isIdentStart hc)
    · exact (visible_of_isIdentPart (of_mem_takeWhile d hmem)).1
  weight := by
    unfold wordToken
    split <;> exact Nat.le_add_left 1 _

/-! ## Strings and templates -/

theorem ne_backslash {c : Char} {cs : List Char} (hone : c = '\\' → cs = [] → False)
    (hmore : ∀ d ds, c = '\\' → cs = d :: ds → False) : c ≠ '\\' := by
  intro hc
  cases cs with
  | nil => exact hone hc rfl
  | cons d ds => exact hmore d ds hc rfl

theorem spanString_quote {q : Char} (hq : q ≠ '\\') (cs : List Char) :
    spanString q (q :: cs) = ([], true) := by
  rw [spanString]
  · rw [if_pos rfl]
  · exact fun h => absurd h hq
  · exact fun _ _ h => absurd h hq

theorem spanString_char {q c : Char} (hc : c ≠ '\\') (hq : c ≠ q) (hline : c ≠ '\n')
    (cs : List Char) :
    spanString q (c :: cs) = (c :: (spanString q cs).1, (spanString q cs).2) := by
  rw [spanString]
  · rw [if_neg hq, if_neg hline]
  · exact fun h => absurd h hc
  · exact fun _ _ h => absurd h hc

theorem spanString_closed {q : Char} (hq : q ≠ '\\') {cs body : List Char}
    (h : spanString q cs = (body, true)) :
    ∃ rest, cs = body ++ q :: rest ∧
      ∀ front, spanString q (body ++ q :: front) = (body, true) := by
  fun_induction spanString q cs generalizing body with
  | case1 => cases h
  | case2 => cases h
  | case3 => cases h
  | case4 c cs hline r =>
    rename_i ih
    obtain ⟨rfl, hclosed⟩ := Prod.mk.inj h
    obtain ⟨rest, hcs, hread⟩ := ih (Prod.ext rfl hclosed)
    refine ⟨rest, by rw [hcs]; rfl, fun front => ?_⟩
    rw [List.cons_append, List.cons_append, spanString, if_neg hline, hread front]
  | case5 cs =>
    obtain ⟨rfl, -⟩ := Prod.mk.inj h
    exact ⟨cs, rfl, fun front => spanString_quote hq front⟩
  | case6 => cases h
  | case7 c cs hone hmore hquote hline r =>
    rename_i ih
    have hc := ne_backslash hone hmore
    obtain ⟨rfl, hclosed⟩ := Prod.mk.inj h
    obtain ⟨rest, hcs, hread⟩ := ih (Prod.ext rfl hclosed)
    refine ⟨rest, by rw [hcs]; rfl, fun front => ?_⟩
    rw [List.cons_append, spanString_char hc hquote hline, hread front]

theorem templateBody?_quoted {c : Char} (hc : c ≠ '\\') (depth : Nat) (q : Char) (cs : List Char) :
    templateBody? depth (some q) (c :: cs) =
      (templateBody? depth (if c = q then none else some q) cs).map (c :: ·) := by
  rw [templateBody?]
  · exact fun h => absurd h hc
  · exact fun _ _ h => absurd h hc

theorem templateBody?_text {c : Char} (hc : c ≠ '\\') (hclose : c ≠ '\x60') {cs : List Char}
    (hcode : ∀ ds, c = '$' → cs = '{' :: ds → False) :
    templateBody? 0 none (c :: cs) = (templateBody? 0 none cs).map (c :: ·) := by
  rw [templateBody?, if_neg hclose]
  · exact fun h => absurd h hc
  · exact fun _ _ h => absurd h hc
  · exact hcode

theorem templateBody?_code {c : Char} (hc : c ≠ '\\') (depth : Nat) (cs : List Char) :
    templateBody? (depth + 1) none (c :: cs) =
      (if c = '{' then templateBody? (depth + 2) none cs
        else if c = '}' then templateBody? depth none cs
        else if c = '\x27' ∨ c = '\x22' then templateBody? (depth + 1) (some c) cs
        else templateBody? (depth + 1) none cs).map (c :: ·) := by
  rw [templateBody?]
  · exact fun h => absurd h hc
  · exact fun _ _ h => absurd h hc

/-- A template that is closed behind its body, whatever stands behind the backquote. -/
def ClosesAs (depth : Nat) (quote : Option Char) (cs body : List Char) : Prop :=
  ∃ rest, cs = body ++ '\x60' :: rest ∧
    ∀ front, templateBody? depth quote (body ++ '\x60' :: front) = some body

theorem ClosesAs.step {depth depth' : Nat} {quote quote' : Option Char} {cs body : List Char}
    (read : List Char) (h : ClosesAs depth' quote' cs body)
    (hstep : ∀ front, templateBody? depth quote (read ++ (body ++ '\x60' :: front)) =
      (templateBody? depth' quote' (body ++ '\x60' :: front)).map (read ++ ·)) :
    ClosesAs depth quote (read ++ cs) (read ++ body) := by
  obtain ⟨rest, rfl, hread⟩ := h
  refine ⟨rest, (List.append_assoc ..).symm, fun front => ?_⟩
  rw [List.append_assoc, hstep, hread, Option.map_some]

theorem templateBody?_closed {depth : Nat} {quote : Option Char} {cs body : List Char}
    (h : templateBody? depth quote cs = some body) : ClosesAs depth quote cs body := by
  fun_induction templateBody? depth quote cs generalizing body with
  | case1 => cases h
  | case2 => cases h
  | case3 depth quote c cs ih =>
    obtain ⟨inner, hinner, rfl⟩ := Option.map_eq_some_iff.1 h
    exact (ih hinner).step ['\\', c] fun front => by simp [templateBody?]
  | case4 depth q c cs hone hmore ih =>
    obtain ⟨inner, hinner, rfl⟩ := Option.map_eq_some_iff.1 h
    exact (ih hinner).step [c] fun front =>
      templateBody?_quoted (ne_backslash hone hmore) depth q (inner ++ '\x60' :: front)
  | case5 cs ih =>
    obtain ⟨inner, hinner, rfl⟩ := Option.map_eq_some_iff.1 h
    exact (ih hinner).step ['$', '{'] fun front => by simp [templateBody?]
  | case6 cs =>
    obtain rfl := Option.some.inj h
    exact ⟨cs, rfl, fun front => by simp [templateBody?]⟩
  | case7 c cs hone hmore hcode hclose ih =>
    obtain ⟨inner, hinner, rfl⟩ := Option.map_eq_some_iff.1 h
    obtain ⟨rest, rfl, -⟩ := ih hinner
    refine (ih hinner).step [c] fun front =>
      templateBody?_text (ne_backslash hone hmore) hclose fun ds hc hds => ?_
    cases inner with
    | nil => cases hds
    | cons d inner =>
      obtain ⟨rfl, -⟩ := List.cons.inj hds
      exact hcode _ hc rfl
  | case8 depth c cs hone hmore r =>
    rename_i ih₄ ih₃ ih₂ ih₁
    obtain ⟨inner, hinner, rfl⟩ := Option.map_eq_some_iff.1 h
    have hstep := templateBody?_code (ne_backslash hone hmore) depth
    simp only [r] at hinner
    -- The four ways on are told apart by the character, not by what follows it.
    split_ifs at hinner hstep with hopen hshut hquote
    · exact (ih₄ hinner).step [c] fun _ => hstep _
    · exact (ih₃ hinner).step [c] fun _ => hstep _
    · exact (ih₂ hinner).step [c] fun _ => hstep _
    · exact (ih₁ hinner).step [c] fun _ => hstep _

theorem scans_string {q : Char} (hq : q = '\x27' ∨ q = '\x22') {cs : List Char} {t : Token}
    {more : Nat} (h : scanString q cs = .token t more) :
    ∃ body rest, cs = body ++ rest ∧ body.length = more ∧ Scans q body rest t := by
  have hslash : q ≠ '\\' := by
    rcases hq with rfl | rfl <;> decide
  unfold scanString at h
  split at h
  · rename_i body hspan
    obtain ⟨rfl, rfl⟩ := Scanned.token.inj h
    obtain ⟨rest, rfl, hread⟩ := spanString_closed hslash hspan
    refine ⟨body ++ [q], rest, by simp, by simp, ?_, ?_, Nat.le_add_left 1 _⟩
    · intro front _
      have hstart : isIdentStart q = false := by
        rcases hq with rfl | rfl <;> decide
      rw [scan, if_neg (by simp [hstart]), if_pos hq, scanString, List.append_assoc,
        List.singleton_append, hread front]
      simp
    · intro d hd
      rw [← List.cons_append, List.getLast?_concat] at hd
      obtain rfl := Option.some.inj hd
      rcases hq with rfl | rfl <;> decide
  · cases h

theorem scans_template {cs : List Char} {t : Token} {more : Nat}
    (h : scanTemplate cs = .token t more) :
    ∃ body rest, cs = body ++ rest ∧ body.length = more ∧ Scans '\x60' body rest t := by
  unfold scanTemplate at h
  split at h
  · rename_i body hbody
    obtain ⟨rfl, rfl⟩ := Scanned.token.inj h
    obtain ⟨rest, rfl, hread⟩ := templateBody?_closed hbody
    refine ⟨body ++ ['\x60'], rest, by simp, by simp, ?_, ?_, ?_⟩
    · intro front _
      have hscan : scan '\x60' (body ++ ['\x60'] ++ front) =
          scanTemplate (body ++ ['\x60'] ++ front) := rfl
      rw [hscan, scanTemplate, List.append_assoc, List.singleton_append, hread front]
      simp
    · intro d hd
      rw [← List.cons_append, List.getLast?_concat] at hd
      obtain rfl := Option.some.inj hd
      decide
    · simp [Token.weight]
  · cases h

/-! ## Numbers -/

theorem takeWhile_prefix_nil {p : Char → Bool} {front cs : List Char} (h : front <+: cs)
    (hcs : cs.takeWhile p = []) : front.takeWhile p = [] := by
  cases front with
  | nil => rfl
  | cons c front =>
    obtain ⟨rest, rfl⟩ := h
    rw [List.cons_append, List.takeWhile_cons] at hcs
    rw [List.takeWhile_cons]
    split at hcs
    · cases hcs
    · rename_i hc
      rw [if_neg hc]

theorem isBlank_of_isDigit {c : Char} (h : isDigit c = true) : isBlank c = false := by
  rw [isDigit_iff] at h
  exact isBlank_of_visible (by omega)

def isNumeralPart (c : Char) : Bool :=
  isDigit c || c == '.' || c == 'e' || c == 'E' || c == '+' || c == '-'

theorem isNumeralPart_digits (cs : List Char) :
    ∀ c ∈ cs.takeWhile isDigit, isNumeralPart c = true := fun c hc => by
  simp [isNumeralPart, of_mem_takeWhile c hc]

theorem isBlank_of_isNumeralPart {c : Char} (h : isNumeralPart c = true) : isBlank c = false := by
  simp only [isNumeralPart, Bool.or_eq_true, beq_iff_eq] at h
  rcases h with ((((h | rfl) | rfl) | rfl) | rfl) | rfl
  · exact isBlank_of_isDigit h
  all_goals decide

end VueToSan.Expr

namespace VueToSan.Number

open VueToSan.Text VueToSan.Expr

def spanSign : List Char → Bool × List Char
  | '+' :: cs => (false, cs)
  | '-' :: cs => (true, cs)
  | cs => (false, cs)

theorem spanExponent_eq (c : Char) (cs : List Char) :
    spanExponent (c :: cs) =
      if c = 'e' ∨ c = 'E' then
        if ((spanSign cs).2.takeWhile isDigit).isEmpty then none
        else some ((spanSign cs).1, (spanSign cs).2.takeWhile isDigit,
          (spanSign cs).2.dropWhile isDigit)
      else none := rfl

theorem spanSign_other {c : Char} (hplus : c ≠ '+') (hminus : c ≠ '-') (cs : List Char) :
    spanSign (c :: cs) = (false, c :: cs) := by
  unfold spanSign
  split
  · rename_i heq
    exact absurd (List.cons.inj heq).1 hplus
  · rename_i heq
    exact absurd (List.cons.inj heq).1 hminus
  · rfl

theorem spanSign_split (cs : List Char) :
    ∃ sign, cs = sign ++ (spanSign cs).2 ∧ (∀ c ∈ sign, isNumeralPart c = true) ∧
      ∀ c rest, isDigit c = true → spanSign (sign ++ c :: rest) = ((spanSign cs).1, c :: rest) := by
  unfold spanSign
  split
  · exact ⟨['+'], rfl, forall_of_all (by decide), fun _ _ _ => rfl⟩
  · exact ⟨['-'], rfl, forall_of_all (by decide), fun _ _ _ => rfl⟩
  · refine ⟨[], rfl, List.forall_mem_nil _, fun c rest hc => spanSign_other ?_ ?_ rest⟩
    · rintro rfl
      exact absurd hc (by decide)
    · rintro rfl
      exact absurd hc (by decide)

theorem spanSign_cut {front cs : List Char} (h : front <+: cs) :
    (spanSign front).2 <+: (spanSign cs).2 := by
  cases front with
  | nil => exact List.nil_prefix
  | cons c front =>
    obtain ⟨rest, rfl⟩ := h
    by_cases hplus : c = '+'
    · subst hplus
      exact List.prefix_append front rest
    · by_cases hminus : c = '-'
      · subst hminus
        exact List.prefix_append front rest
      · rw [List.cons_append, spanSign_other hplus hminus, spanSign_other hplus hminus]
        exact List.prefix_append (c :: front) rest

theorem spanExponent_front {cs digits rest : List Char} {negative : Bool}
    (h : spanExponent cs = some (negative, digits, rest)) :
    ∃ used, cs = used ++ rest ∧ (∀ c ∈ used, isNumeralPart c = true) ∧
      ∀ front, front <+: rest → spanExponent (used ++ front) = some (negative, digits, front) := by
  cases cs with
  | nil => cases h
  | cons c cs =>
    rw [spanExponent_eq, Option.ite_none_right_eq_some, Option.ite_none_left_eq_some] at h
    obtain ⟨hc, hne, h⟩ := h
    obtain ⟨sign, hsplit, hsign, hread⟩ := spanSign_split cs
    generalize hbehind : spanSign cs = behind at h hne hsplit hread
    obtain ⟨flag, ds⟩ := behind
    obtain ⟨rfl, rfl, rfl⟩ : flag = negative ∧ ds.takeWhile isDigit = digits ∧
        ds.dropWhile isDigit = rest := by simpa using h
    dsimp only at hsplit hread
    refine ⟨c :: (sign ++ ds.takeWhile isDigit), ?_, ?_, fun front hfront => ?_⟩
    · rw [List.cons_append, List.append_assoc, List.takeWhile_append_dropWhile, ← hsplit]
    · refine List.forall_mem_cons.2 ⟨?_, List.forall_mem_append.2 ⟨hsign, isNumeralPart_digits ds⟩⟩
      rcases hc with rfl | rfl <;> decide
    · obtain ⟨d, tail, hdigits⟩ : ∃ d tail, ds.takeWhile isDigit = d :: tail :=
        List.exists_cons_of_ne_nil (by simpa using hne)
      have hd : isDigit d = true := of_mem_takeWhile d (hdigits ▸ List.mem_cons_self)
      have hspan : spanSign (sign ++ (ds.takeWhile isDigit ++ front)) =
          (flag, ds.takeWhile isDigit ++ front) := by
        rw [hdigits, List.cons_append, hread d _ hd]
      rw [List.cons_append, List.append_assoc, spanExponent_eq, hspan, if_pos hc,
        takeWhile_front hfront, dropWhile_front hfront, if_neg hne]

theorem spanExponent_none_cut {cs front : List Char} (h : spanExponent cs = none)
    (hfront : front <+: cs) : spanExponent front = none := by
  cases front with
  | nil => rfl
  | cons c front =>
    obtain ⟨rest, rfl⟩ := hfront
    rw [List.cons_append, spanExponent_eq] at h
    rw [spanExponent_eq]
    by_cases hc : c = 'e' ∨ c = 'E'
    · have hnil : (spanSign (front ++ rest)).2.takeWhile isDigit = [] := by
        by_contra hne
        rw [if_pos hc, if_neg (by simpa using hne)] at h
        cases h
      have hprefix := spanSign_cut (List.prefix_append front rest)
      rw [if_pos hc, if_pos (List.isEmpty_iff.2 (takeWhile_prefix_nil hprefix hnil))]
    · rw [if_neg hc]

def spanFraction : List Char → List Char × List Char
  | '.' :: cs => (cs.takeWhile isDigit, cs.dropWhile isDigit)
  | cs => ([], cs)

theorem spanNumeral_eq (cs : List Char) :
    spanNumeral cs =
      if (cs.takeWhile isDigit).isEmpty ∧ (spanFraction (cs.dropWhile isDigit)).1.isEmpty then none
      else match spanExponent (spanFraction (cs.dropWhile isDigit)).2 with
        | some (negative, exponent, rest) => some (⟨cs.takeWhile isDigit,
            (spanFraction (cs.dropWhile isDigit)).1, negative, exponent⟩, rest)
        | none => some (⟨cs.takeWhile isDigit, (spanFraction (cs.dropWhile isDigit)).1, false, []⟩,
            (spanFraction (cs.dropWhile isDigit)).2) := by
  unfold spanNumeral
  generalize cs.dropWhile isDigit = behind
  split
  rename_i heq
  fun_cases spanFraction behind with
  | case1 cs =>
    obtain ⟨rfl, rfl⟩ := Prod.mk.inj heq
    rfl
  | case2 cs hpoint =>
    split at heq
    · exact absurd rfl (hpoint _)
    · obtain ⟨rfl, rfl⟩ := Prod.mk.inj heq
      rfl

theorem spanFraction_front {cs fraction rest : List Char}
    (h : spanFraction cs = (fraction, rest)) :
    ∃ used, cs = used ++ rest ∧ (∀ c ∈ used, isNumeralPart c = true) ∧
      ∀ front, front <+: rest → spanFraction (used ++ front) = (fraction, front) := by
  unfold spanFraction at h
  split at h
  · rename_i cs
    obtain ⟨rfl, rfl⟩ := Prod.mk.inj h
    refine ⟨'.' :: cs.takeWhile isDigit, ?_, ?_, fun front hfront => ?_⟩
    · rw [List.cons_append, List.takeWhile_append_dropWhile]
    · exact List.forall_mem_cons.2 ⟨by decide, isNumeralPart_digits cs⟩
    · rw [List.cons_append, spanFraction, takeWhile_front hfront, dropWhile_front hfront]
  · rename_i hpoint
    obtain ⟨rfl, rfl⟩ := Prod.mk.inj h
    refine ⟨[], rfl, List.forall_mem_nil _, fun front hfront => ?_⟩
    rw [List.nil_append]
    unfold spanFraction
    split
    · obtain ⟨tail, rfl⟩ := hfront
      exact absurd rfl (hpoint _)
    · rfl

theorem spanNumeral_front {cs rest : List Char} {n : Numeral}
    (h : spanNumeral cs = some (n, rest)) :
    ∃ used, cs = used ++ rest ∧ (∀ c ∈ used, isNumeralPart c = true) ∧
      ∀ front, front <+: rest → spanNumeral (used ++ front) = some (n, front) := by
  rw [spanNumeral_eq, Option.ite_none_left_eq_some] at h
  obtain ⟨hne, h⟩ := h
  generalize hfraction : spanFraction (cs.dropWhile isDigit) = fractional at h hne
  obtain ⟨fraction, behind⟩ := fractional
  obtain ⟨point, hpoint, hchars, hread⟩ := spanFraction_front hfraction
  -- What is left of the text behind the fraction, for each text behind the numeral.
  obtain ⟨power, hpower, hpowers, hexponent⟩ : ∃ power, behind = power ++ rest ∧
      (∀ c ∈ power, isNumeralPart c = true) ∧ ∀ front, front <+: rest →
        (match spanExponent (power ++ front) with
          | some (negative, exponent, rest) =>
            some (⟨cs.takeWhile isDigit, fraction, negative, exponent⟩, rest)
          | none => some (⟨cs.takeWhile isDigit, fraction, false, []⟩, power ++ front)) =
            some (n, front) := by
    dsimp only at h
    split at h
    · rename_i negative exponent rest' hspan
      obtain ⟨rfl, rfl⟩ := Prod.mk.inj (Option.some.inj h)
      obtain ⟨power, hpower, hpowers, hagain⟩ := spanExponent_front hspan
      exact ⟨power, hpower, hpowers, fun front hfront => by rw [hagain front hfront]⟩
    · rename_i hspan
      obtain ⟨rfl, rfl⟩ := Prod.mk.inj (Option.some.inj h)
      refine ⟨[], rfl, List.forall_mem_nil _, fun front hfront => ?_⟩
      rw [List.nil_append, spanExponent_none_cut hspan hfront]
  refine ⟨cs.takeWhile isDigit ++ (point ++ power), ?_, ?_, fun front hfront => ?_⟩
  · rw [List.append_assoc, List.append_assoc, ← hpower, ← hpoint, List.takeWhile_append_dropWhile]
  · exact List.forall_mem_append.2
      ⟨isNumeralPart_digits cs, List.forall_mem_append.2 ⟨hchars, hpowers⟩⟩
  · have hpowerFront : power ++ front <+: behind := by
      rw [hpower]
      exact (List.prefix_append_right_inj power).2 hfront
    have hpointFront : point ++ (power ++ front) <+: cs.dropWhile isDigit := by
      rw [hpoint]
      exact (List.prefix_append_right_inj point).2 hpowerFront
    rw [spanNumeral_eq, List.append_assoc, List.append_assoc, takeWhile_front hpointFront,
      dropWhile_front hpointFront, hread _ hpowerFront, if_neg hne]
    exact hexponent front hfront

end VueToSan.Number

namespace VueToSan.Expr

open VueToSan.Text VueToSan.Number

theorem isBlank_of_isDigitOf {c : Char} (h : isDigitOf 16 c = true) : isBlank c = false := by
  rw [isDigitOf, decide_eq_true_eq, digitValue] at h
  split_ifs at h with hdigit hlower hupper
  · exact isBlank_of_isDigit hdigit
  · rw [isLower_iff] at hlower
    exact isBlank_of_visible (by omega)
  · rw [isUpper_iff] at hupper
    exact isBlank_of_visible (by omega)
  · exact absurd h (by decide)

theorem hexDigits?_some {cs digits : List Char} (h : hexDigits? cs = some digits) :
    ∃ x behind, cs = '0' :: x :: behind ∧ (x = 'x' ∨ x = 'X') ∧
      digits = behind.takeWhile (isDigitOf 16) ∧ digits ≠ [] := by
  unfold hexDigits? at h
  split at h
  · rename_i x behind
    rw [Option.ite_none_right_eq_some, Option.ite_none_left_eq_some, Option.some.injEq] at h
    obtain ⟨hx, hne, rfl⟩ := h
    exact ⟨x, behind, rfl, hx, rfl, by simpa using hne⟩
  · cases h

theorem hexDigits?_prefix {cs front : List Char} (h : hexDigits? cs = none)
    (hfront : front <+: cs) : hexDigits? front = none := by
  cases hhex : hexDigits? front with
  | none => rfl
  | some digits =>
    obtain ⟨x, behind, rfl, hx, rfl, hne⟩ := hexDigits?_some hhex
    obtain ⟨rest, rfl⟩ := hfront
    have hdigits : (behind ++ rest).takeWhile (isDigitOf 16) ≠ [] := fun hnil =>
      hne (takeWhile_prefix_nil (List.prefix_append behind rest) hnil)
    simp [hexDigits?, hx, hdigits] at h

theorem scans_number {c : Char} (hc : IsPlainStart c) {cs : List Char} {t : Token} {more : Nat}
    (h : scanNumber? (c :: cs) = some (.token t more)) :
    ∃ body rest, cs = body ++ rest ∧ body.length = more ∧ Scans c body rest t := by
  unfold scanNumber? at h
  split at h
  · rename_i digits hhex
    obtain ⟨x, behind, hcs, hx, rfl, hne⟩ := hexDigits?_some hhex
    obtain ⟨rfl, rfl⟩ := List.cons.inj hcs
    dsimp only at h
    split_ifs at h with hsize
    · obtain ⟨rfl, rfl⟩ := Scanned.token.inj (Option.some.inj h)
      -- Cutting the text behind the digits leaves the digits, and with them the token.
      refine ⟨x :: behind.takeWhile (isDigitOf 16), behind.dropWhile (isDigitOf 16), ?_, rfl, ?_⟩
      · rw [List.cons_append, List.takeWhile_append_dropWhile]
      · refine ⟨fun front hfront => ?_, fun d hd => ?_, Nat.le_add_left 1 _⟩
        · have hagain : hexDigits? ('0' :: x :: (behind.takeWhile (isDigitOf 16) ++ front)) =
              some (behind.takeWhile (isDigitOf 16)) := by
            simp [hexDigits?, hx, takeWhile_front hfront, hne]
          rw [scan_plain hc, List.cons_append, scanNumber?, hagain]
          simp [hsize]
        · rcases List.mem_cons.1 (List.mem_of_getLast? hd) with rfl | hd
          · decide
          · rcases List.mem_cons.1 hd with rfl | hd
            · rcases hx with rfl | rfl <;> decide
            · exact isBlank_of_isDigitOf (of_mem_takeWhile d hd)
    · cases Option.some.inj h
  · rename_i hhex
    split at h
    · rename_i n rest hspan
      obtain ⟨used, hused, hchars, hread⟩ := spanNumeral_front hspan
      cases used with
      | nil => cases hread [] List.nil_prefix
      | cons d body =>
        obtain ⟨rfl, rfl⟩ := List.cons.inj hused
        obtain ⟨rfl, rfl⟩ := Scanned.token.inj (Option.some.inj h)
        refine ⟨body, rest, rfl, by simp; omega, ?_, ?_, Nat.le_add_left 1 _⟩
        · intro front hfront
          -- A shorter text is no hexadecimal literal either.
          have hnone : hexDigits? (c :: (body ++ front)) = none :=
            hexDigits?_prefix hhex ((List.prefix_append_right_inj (c :: body)).2 hfront)
          have hagain : spanNumeral (c :: (body ++ front)) = some (n, front) := hread front hfront
          rw [scan_plain hc, scanNumber?, hnone]
          simp [hagain]
          omega
        · exact fun e he => isBlank_of_isNumeralPart (hchars e (List.mem_of_getLast? he))
    · cases h

/-! ## Marks -/

theorem of_scanNumber?_none {c : Char} {cs : List Char} (h : scanNumber? (c :: cs) = none) :
    isDigit c = false ∧ (c = '.' → ∀ d ∈ cs.head?, isDigit d = false) := by
  have hspan : spanNumeral (c :: cs) = none := by
    unfold scanNumber? at h
    split at h
    · dsimp only at h
      split_ifs at h
    · split at h
      · cases h
      · assumption
  rw [spanNumeral_eq, ite_eq_left_iff] at hspan
  have hnil : ((c :: cs).takeWhile isDigit).isEmpty ∧
      (spanFraction ((c :: cs).dropWhile isDigit)).1.isEmpty := by
    by_contra hne
    have hsome := hspan hne
    split at hsome <;> cases hsome
  have hc : isDigit c = false := by
    by_contra hdigit
    rw [Bool.not_eq_false] at hdigit
    simp [hdigit] at hnil
  refine ⟨hc, ?_⟩
  rintro rfl d hd
  obtain ⟨tail, rfl⟩ := List.head?_eq_some_iff.1 hd
  have hfraction := hnil.2
  rw [List.dropWhile_cons_of_neg (by simp [hc]), spanFraction] at hfraction
  by_contra hdigit
  rw [Bool.not_eq_false] at hdigit
  simp [hdigit] at hfraction

theorem scans_punct {c : Char} (hc : IsPlainStart c) {cs : List Char} {t : Token} {more : Nat}
    (hnumber : scanNumber? (c :: cs) = none) (h : scanPunct (c :: cs) = .token t more) :
    ∃ body rest, cs = body ++ rest ∧ body.length = more ∧ Scans c body rest t := by
  obtain ⟨hdigit, hpoint⟩ := of_scanNumber?_none hnumber
  unfold scanPunct at h
  split at h
  · rename_i p hfind
    obtain ⟨rfl, rfl⟩ := Scanned.token.inj h
    obtain ⟨hfirst, before, after, hall, hbefore⟩ := List.find?_eq_some_iff_append.1 hfind
    rw [List.isPrefixOf_iff_prefix] at hfirst
    obtain ⟨rest, hrest⟩ := hfirst
    obtain ⟨d, body, htext, hlength, hvisible, -, -, -⟩ := p.text_cases
    rw [htext] at hrest
    obtain ⟨rfl, rfl⟩ := List.cons.inj hrest
    refine ⟨body, rest, rfl, by rw [hlength, Nat.add_sub_cancel], ?_, ?_, Nat.le_add_left 1 _⟩
    · intro front hfront
      have hcut : d :: (body ++ front) <+: d :: (body ++ rest) :=
        (List.prefix_append_right_inj (d :: body)).2 hfront
      have hnone : scanNumber? (d :: (body ++ front)) = none :=
        scanNumber?_none hdigit fun hd e he =>
          hpoint hd e (mem_head?_front ((List.prefix_append_right_inj body).2 hfront) e he)
      -- The marks that are tried first do not fit the longer text, so they do not fit this one.
      have hagain : Punct.all.find? (·.text.toList.isPrefixOf (d :: (body ++ front))) = some p := by
        refine List.find?_eq_some_iff_append.2 ⟨?_, before, after, hall, fun q hq => ?_⟩
        · rw [List.isPrefixOf_iff_prefix, htext]
          exact List.prefix_append (d :: body) front
        · have hq := hbefore q hq
          rw [Bool.not_eq_true', Bool.eq_false_iff, ne_eq, List.isPrefixOf_iff_prefix] at hq ⊢
          exact fun hshort => hq (hshort.trans hcut)
      rw [scan_plain hc, hnone, Option.getD_none, scanPunct, hagain]
      simp [hlength]
    · intro e he
      have hall : Punct.all.all (fun p => p.text.toList.all fun c => isBlank c = false) = true := by
        decide +kernel
      have htexts := List.all_eq_true.1 hall p p.mem_all
      exact forall_of_all htexts e (htext ▸ List.mem_of_getLast? he)
  · cases h

/-! ## All tokens -/

theorem scans_of_scan {c : Char} {cs : List Char} {t : Token} {more : Nat}
    (h : scan c cs = .token t more) :
    ∃ body rest, cs = body ++ rest ∧ body.length = more ∧ Scans c body rest t := by
  by_cases hstart : isIdentStart c = true
  · simp only [scan, hstart, if_true, List.length_cons, Nat.add_sub_cancel] at h
    obtain ⟨rfl, rfl⟩ := Scanned.token.inj h
    exact ⟨_, _, List.takeWhile_append_dropWhile.symm, rfl, scans_word hstart cs⟩
  rw [scan, if_neg hstart] at h
  split_ifs at h with hquote hback
  · exact scans_string hquote h
  · subst hback
    exact scans_template h
  · have hplain : IsPlainStart c :=
      ⟨by simpa using hstart, fun hc => hquote (.inl hc), fun hc => hquote (.inr hc), hback⟩
    cases hnumber : scanNumber? (c :: cs) with
    | some r =>
      rw [hnumber, Option.getD_some] at h
      exact scans_number hplain (h ▸ hnumber)
    | none =>
      rw [hnumber, Option.getD_none] at h
      exact scans_punct hplain hnumber h

end VueToSan.Expr
