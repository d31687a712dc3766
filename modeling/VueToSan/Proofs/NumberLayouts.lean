import VueToSan.Proofs.Lexing
import VueToSan.Proofs.MinimalDecimals
import VueToSan.Proofs.SignedNumbers

/-!
# Layouts of numbers

The text of a finite number other than zero stands for exactly the shortest decimal of the number.
It has one of four layouts, which differ in where the point stands: behind the digits, among them,
in front of them, or behind the first one with an exponent. None of them has a zero that could be
left out, and without a sign it is one token.
-/

namespace VueToSan.Number

open VueToSan.Text VueToSan.Expr

/-! ## Numerals as texts -/

def pointed (fraction : List Char) : List Char :=
  if fraction = [] then [] else '.' :: fraction

def raised (negative : Bool) (exponent : List Char) : List Char :=
  if exponent = [] then [] else 'e' :: (if negative then '-' else '+') :: exponent

def Numeral.text (n : Numeral) : List Char :=
  n.whole ++ (pointed n.fraction ++ raised n.negativeExponent n.exponent)

/-- A numeral without superfluous zeros: only a zero that stands alone begins the digits before the
point, none ends those behind it, and none begins the exponent. -/
structure Numeral.IsTidy (n : Numeral) : Prop where
  whole_digits : ∀ c ∈ n.whole, isDigit c = true
  whole : n.whole = ['0'] ∨ n.whole ≠ [] ∧ n.whole.head? ≠ some '0'
  fraction_digits : ∀ c ∈ n.fraction, isDigit c = true
  fraction : n.fraction.getLast? ≠ some '0'
  exponent_digits : ∀ c ∈ n.exponent, isDigit c = true
  exponent : n.exponent.head? ≠ some '0'
  /-- In front of an exponent there is one digit, which is no zero. -/
  unit : n.exponent ≠ [] → n.whole.length = 1 ∧ n.whole ≠ ['0']
  sign : n.exponent = [] → n.negativeExponent = false

inductive StandsFor : List Char → ℚ → Prop
  | unsigned {cs : List Char} {n : Numeral} : spanNumeral cs = some (n, []) →
      StandsFor cs n.exact
  | negated {cs : List Char} {n : Numeral} : spanNumeral cs = some (n, []) →
      StandsFor ('-' :: cs) (-n.exact)

theorem head_raised (negative : Bool) (exponent : List Char) :
    ∀ c ∈ (raised negative exponent).head?, isDigit c = false ∧ c ≠ '.' := by
  intro c hc
  unfold raised at hc
  split at hc
  · cases hc
  · obtain rfl := Option.some.inj hc
    decide

theorem withExponent_raised (whole fraction : List Char) {exponent : List Char} {negative : Bool}
    (hdigits : ∀ c ∈ exponent, isDigit c = true) (hsign : exponent = [] → negative = false) :
    withExponent whole fraction (raised negative exponent) =
      some (⟨whole, fraction, negative, exponent⟩, []) := by
  by_cases hexponent : exponent = []
  · rw [hsign hexponent, raised, if_pos hexponent, hexponent]
    rfl
  · have hends : EndsNumeral [] := fun _ h => by cases h
    have hspan := spanExponent_some hdigits hexponent hends negative
    rw [List.append_nil] at hspan
    rw [raised, if_neg hexponent, withExponent, hspan]

theorem Numeral.IsTidy.spanNumeral {n : Numeral} (h : n.IsTidy) :
    spanNumeral n.text = some (n, []) := by
  have hne : n.whole ≠ [] := by
    rcases h.whole with hzero | hwhole
    · simp [hzero]
    · exact hwhole.1
  have hraised := withExponent_raised n.whole n.fraction h.exponent_digits h.sign
  rw [Numeral.text, pointed]
  split
  · rename_i hfraction
    rw [List.nil_append, spanNumeral_whole h.whole_digits hne (head_raised _ _), ← hraised,
      hfraction]
  · rw [List.cons_append, spanNumeral_point h.whole_digits hne h.fraction_digits
      fun c hc => (head_raised _ _ c hc).1, ← hraised]

/-! ## The four layouts -/

/-- Where the point stands in the text of a decimal. The counts of zeros are natural numbers, and a
point among the digits has some of them on either side. -/
inductive LaidOut : Decimal → List Char → Prop
  | whole {ds : List Char} {z : ℕ} : ds.length + z ≤ 21 →
      LaidOut ⟨ds, ds.length + z - 1⟩ (ds ++ zeros z)
  | inside {front back : List Char} : front ≠ [] → back ≠ [] → front.length ≤ 21 →
      LaidOut ⟨front ++ back, front.length - 1⟩ (front ++ '.' :: back)
  | before {ds : List Char} {z : ℕ} : z < 6 →
      LaidOut ⟨ds, -z - 1⟩ ('0' :: '.' :: (zeros z ++ ds))
  | scientific {d : Char} {back : List Char} {e : ℤ} : 21 ≤ e ∨ e < -6 →
      LaidOut ⟨d :: back, e⟩
        (d :: (pointed back ++ raised (decide (e < 0)) (Nat.toDigits 10 e.natAbs)))

theorem laidOut_scientific {d : Decimal} (hne : d.digits ≠ [])
    (hexponent : 21 ≤ d.exponent ∨ d.exponent < -6) : LaidOut d (scientific d) := by
  obtain ⟨digits, e⟩ := d
  obtain ⟨first, back, rfl⟩ := List.exists_cons_of_ne_nil hne
  have htext : scientific ⟨first :: back, e⟩ =
      first :: (pointed back ++ raised (decide (e < 0)) (Nat.toDigits 10 e.natAbs)) := by
    rw [raised, if_neg Nat.toDigits_ne_nil]
    cases back <;> simp [scientific, pointed]
  rw [htext]
  exact .scientific hexponent

theorem laidOut_plain {f : Layout} (hf : f.wholeEnd = []) {d : Decimal} (hne : d.digits ≠ [])
    (hlow : -6 ≤ d.exponent) (hhigh : d.exponent < 21) : LaidOut d (f.plain d) := by
  obtain ⟨ds, e⟩ := d
  dsimp only at hlow hhigh hne
  rw [Layout.plain, hf]
  dsimp only
  have hpos := List.length_pos_iff.2 hne
  split_ifs with hwhole hinside
  · have htext := @LaidOut.whole ds (e + 1 - ds.length).toNat (by omega)
    have hexponent : (ds.length : ℤ) + (e + 1 - ds.length).toNat - 1 = e := by omega
    rwa [hexponent, ← List.append_nil (ds ++ _)] at htext
  · have htext := @LaidOut.inside (ds.take (e + 1).toNat) (ds.drop (e + 1).toNat)
      (by simp [hne]; omega) (by simp; omega) (by rw [List.length_take]; omega)
    have hexponent : ((ds.take (e + 1).toNat).length : ℤ) - 1 = e := by
      rw [List.length_take]
      omega
    rwa [hexponent, List.take_append_drop] at htext
  · have htext := @LaidOut.before ds (-(e + 1)).toNat (by omega)
    have hexponent : -((-(e + 1)).toNat : ℤ) - 1 = e := by omega
    rwa [hexponent] at htext

theorem positional_iff (e : ℤ) : numberLayout.positional e = true ↔ -6 ≤ e ∧ e < 21 := by
  simp only [numberLayout, Bool.and_eq_true, decide_eq_true_eq]
  omega

theorem laidOut_decimal {d : Decimal} (hne : d.digits ≠ []) :
    LaidOut d (numberLayout.decimal d) := by
  rw [Layout.decimal]
  split
  · rename_i hpositional
    rw [positional_iff] at hpositional
    exact laidOut_plain rfl hne hpositional.1 hpositional.2
  · rename_i hpositional
    rw [positional_iff] at hpositional
    exact laidOut_scientific hne (by omega)

/-! ## Tidy texts -/

theorem isTidy_positional {whole fraction : List Char} (hwhole : ∀ c ∈ whole, isDigit c = true)
    (hfirst : whole = ['0'] ∨ whole ≠ [] ∧ whole.head? ≠ some '0')
    (hfraction : ∀ c ∈ fraction, isDigit c = true) (hlast : fraction.getLast? ≠ some '0') :
    (⟨whole, fraction, false, []⟩ : Numeral).IsTidy where
  whole_digits := hwhole
  whole := hfirst
  fraction_digits := hfraction
  fraction := hlast
  exponent_digits := List.forall_mem_nil _
  exponent := by simp
  unit := fun h => absurd rfl h
  sign := fun _ => rfl

theorem text_positional (whole fraction : List Char) :
    (⟨whole, fraction, false, []⟩ : Numeral).text = whole ++ pointed fraction := by
  rw [Numeral.text, raised, if_pos rfl, List.append_nil]

theorem pointed_of_ne_nil {fraction : List Char} (h : fraction ≠ []) :
    pointed fraction = '.' :: fraction := if_neg h

theorem LaidOut.tidy {d : Decimal} {text : List Char} (h : LaidOut d text) (hd : d.IsTrimmed) :
    ∃ n : Numeral, n.IsTidy ∧ n.text = text ∧
      (n.exponent ≠ [] ↔ 21 ≤ d.exponent ∨ d.exponent < -6) := by
  obtain ⟨hdigits, hne, hfirst, hlast⟩ := hd
  cases h with
  | @whole ds z hz =>
    have hpos := List.length_pos_iff.2 hne
    refine ⟨⟨ds ++ zeros z, [], false, []⟩, isTidy_positional
      (List.forall_mem_append.2 ⟨hdigits, isDigit_zeros z⟩) (.inr ⟨?_, ?_⟩)
      (List.forall_mem_nil _) (by simp), ?_, ?_⟩
    · exact fun h => hne (List.append_eq_nil_iff.1 h).1
    · rwa [List.head?_append_of_ne_nil _ hne]
    · rw [text_positional, pointed, if_pos rfl, List.append_nil]
    · dsimp only at hpos ⊢
      exact iff_of_false (fun h => h rfl) (by omega)
  | @inside front back hfront hback hlength =>
    have hpos := List.length_pos_iff.2 hfront
    obtain ⟨hleft, hright⟩ := List.forall_mem_append.1 hdigits
    refine ⟨⟨front, back, false, []⟩, isTidy_positional hleft (.inr ⟨hfront, ?_⟩) hright ?_, ?_, ?_⟩
    · rwa [List.head?_append_of_ne_nil _ hfront] at hfirst
    · rwa [List.getLast?_append_of_ne_nil _ hback] at hlast
    · rw [text_positional, pointed_of_ne_nil hback]
    · exact iff_of_false (fun h => h rfl) (by dsimp only; omega)
  | @before ds z hz =>
    have hne' : zeros z ++ ds ≠ [] := fun h => hne (List.append_eq_nil_iff.1 h).2
    refine ⟨⟨['0'], zeros z ++ ds, false, []⟩, isTidy_positional (forall_of_all (by decide))
      (.inl rfl) (List.forall_mem_append.2 ⟨isDigit_zeros z, hdigits⟩) ?_, ?_, ?_⟩
    · rwa [List.getLast?_append_of_ne_nil _ hne]
    · rw [text_positional, pointed_of_ne_nil hne']
      rfl
    · exact iff_of_false (fun h => h rfl) (by dsimp only; omega)
  | @scientific d back e he =>
    obtain ⟨hd, hback⟩ := List.forall_mem_cons.1 hdigits
    -- Only here is there an exponent, and it is far from zero.
    have hexponent := head?_toDigits (show 0 < e.natAbs by omega)
    have hzero : d ≠ '0' := fun h => hfirst (congrArg some h)
    refine ⟨⟨[d], back, decide (e < 0), Nat.toDigits 10 e.natAbs⟩,
      ⟨by simpa using hd, .inr ⟨by simp, hfirst⟩, hback, ?_, isDigit_toDigits _, hexponent,
        fun _ => ⟨rfl, by simpa using hzero⟩, fun h => absurd h Nat.toDigits_ne_nil⟩, rfl,
      iff_of_true Nat.toDigits_ne_nil he⟩
    by_cases hempty : back = []
    · simp [hempty]
    · have hsplit : (d :: back).getLast? = back.getLast? :=
        List.getLast?_append_of_ne_nil [d] hempty
      rwa [hsplit] at hlast

theorem Numeral.IsTidy.e_mem_text {n : Numeral} (h : n.IsTidy) :
    'e' ∈ n.text ↔ n.exponent ≠ [] := by
  have hnone {ds : List Char} (hds : ∀ c ∈ ds, isDigit c = true) : 'e' ∉ ds :=
    fun he => absurd (hds 'e' he) (by decide)
  have hfraction : 'e' ∉ pointed n.fraction := by
    unfold pointed
    split
    · exact List.not_mem_nil
    · rw [List.mem_cons, not_or]
      exact ⟨by decide, hnone h.fraction_digits⟩
  rw [Numeral.text, List.mem_append, List.mem_append, or_iff_right (hnone h.whole_digits),
    or_iff_right hfraction, raised]
  split
  · rename_i hexponent
    simp [hexponent]
  · rename_i hexponent
    simp [hexponent]

/-! ## Whole texts -/

variable {x : Float} {negative : Bool} {m : ℕ} {e : ℤ}

theorem tokenize_text {n : Numeral} {text : String} (htext : text.toList = n.text)
    (hspan : spanNumeral n.text = some (n, []))
    (hhead : ∃ c tail, n.text = c :: tail ∧ isDigit c = true ∧
      ∀ d ∈ tail.head?, d ≠ 'x' ∧ d ≠ 'X') (base : ℕ) :
    tokenize text base = .ok [⟨.number n.value, ⟨base, base + byteLength text.toList⟩⟩] := by
  obtain ⟨c, tail, hcs, hc, htail⟩ := hhead
  rw [tokenize, htext, hcs]
  rw [hcs, ← List.append_nil (c :: tail)] at hspan
  obtain ⟨hsep, hscan⟩ := scan_numeral hspan hc htail fun _ h => by cases h
  have htokens := tokenizeFrom_token hsep hscan base
  rw [List.append_nil] at htokens
  rw [htokens]
  rfl

theorem standsFor_signed {n : Numeral} (hspan : spanNumeral n.text = some (n, []))
    (negative : Bool) :
    StandsFor (signed negative n.text) ((if negative then -1 else 1) * n.exact) := by
  cases negative with
  | false =>
    rw [if_neg Bool.false_ne_true, one_mul]
    exact .unsigned hspan
  | true =>
    rw [if_pos rfl, neg_one_mul]
    exact .negated hspan

/-- The text of a finite number other than zero: it stands for exactly the shortest decimal of the
number, laid out without superfluous zeros, with an exponent from 10^21 on and below 10^-6. The
text of a positive number is one token, for that number. -/
theorem formatNumber_exact (h : decode x = .finite negative m e) (hm : m ≠ 0) :
    (shortest .up m e).IsShortest m e ∧
      StandsFor (formatNumber x).toList
        ((if negative then -1 else 1) * (shortest .up m e).value) ∧
      ('e' ∈ (formatNumber x).toList ↔
        21 ≤ (shortest .up m e).exponent ∨ (shortest .up m e).exponent < -6) ∧
      (∃ n : Numeral, n.IsTidy ∧ LaidOut (shortest .up m e) n.text ∧
        (formatNumber x).toList = signed negative n.text) ∧
      (negative = false → ∀ base, tokenize (formatNumber x) base =
        .ok [⟨.number x, ⟨base, base + byteLength (formatNumber x).toList⟩⟩]) := by
  obtain ⟨hbits, hdouble, -⟩ := decode_finite h
  have hd := hdouble (Nat.pos_of_ne_zero hm)
  have hshortest := isShortest_shortest hd .up
  have htrimmed := hshortest.trimmed
  have hlaid := laidOut_decimal htrimmed.ne_nil
  obtain ⟨n, htidy, htext, hexponent⟩ := hlaid.tidy htrimmed
  have hspan := htidy.spanNumeral
  have hwritten : (formatNumber x).toList = signed negative n.text := by
    simp [formatNumber, Layout.write, h, hm, htext, numberLayout]
  have hdenotes : (shortest .up m e).Denotes (shortest .up m e).value :=
    ⟨htrimmed.digits, htrimmed.ne_nil, rfl⟩
  obtain ⟨⟨n', hexact, hread⟩, hhead⟩ := @decimal_text numberLayout rfl _ _ hdenotes
  rw [← htext] at hread hhead hlaid
  -- The tidy numeral is the one that is read from the text.
  obtain rfl : n' = n := by
    have hsame := hread [] fun _ h => by cases h
    rw [List.append_nil, hspan] at hsame
    exact (Prod.mk.inj (Option.some.inj hsame)).1.symm
  refine ⟨hshortest, ?_, ?_, ⟨n', htidy, hlaid, hwritten⟩, fun hpositive base => ?_⟩
  · rw [hwritten, ← hexact]
    exact standsFor_signed hspan negative
  · have hsign : 'e' ∈ signed negative n'.text ↔ 'e' ∈ n'.text := by
      cases negative <;> simp [signed]
    rw [hwritten, hsign, htidy.e_mem_text, hexponent]
  · have hvalue := n'.value_eq hd (hexact ▸ hshortest.rounds)
    have hx := eq_abs_of_decode h
    rw [hpositive, if_neg Bool.false_ne_true, abs_eq, ← hbits, ← hvalue] at hx
    rw [hpositive] at hwritten
    have htokens := tokenize_text hwritten hspan hhead base
    rwa [← hx] at htokens

def sampleNumber : Float := ofRatio true 1 40000000

theorem sampleNumber_exact :
    decode sampleNumber = .finite true 7555786372591432 (-78) ∧
      formatNumber sampleNumber = "-2.5e-8" ∧
      (⟨"25".toList, -8⟩ : Decimal).IsShortest 7555786372591432 (-78) ∧
      StandsFor "-2.5e-8".toList (-1 * (⟨"25".toList, -8⟩ : Decimal).value) := by
  have hdecode : decode sampleNumber = .finite true 7555786372591432 (-78) := by decide +kernel
  have hshort : shortest .up 7555786372591432 (-78) = ⟨"25".toList, -8⟩ := by decide +kernel
  have htext : formatNumber sampleNumber = "-2.5e-8" := by decide +kernel
  obtain ⟨hshortest, hstands, -⟩ := formatNumber_exact hdecode (by decide)
  rw [hshort] at hshortest hstands
  rw [htext, if_pos rfl] at hstands
  exact ⟨hdecode, htext, hshortest, hstands⟩

end VueToSan.Number
