import Mathlib.Data.List.TakeWhile
import VueToSan.Proofs.ScannedTokens
import VueToSan.Proofs.SignedNumbers

/-!
# Texts that are numbers

A text is converted to a number when it is a numeric literal, up to blanks around it: nothing at
all, a decimal or `Infinity` with an optional sign, or digits behind the prefix of a base. There are
two exceptions behind a prefix: a plus sign is accepted in front of the digits, and digits for a
number that does not fit into 64 bits are refused.
-/

namespace VueToSan.Number

open VueToSan.Text VueToSan.Expr

section

open Float.Model Float.Model.UnpackedFloat

/-! ## What is no number -/

theorem isNaN_ofFields {sign : BitVec 1} {exponent : BitVec 11} {mantissa : BitVec 52} :
    (ofFields sign exponent mantissa).isNaN = true ↔ exponent = -1#11 ∧ mantissa ≠ 0#52 := by
  unfold ofFields
  by_cases htop : exponent = -1#11
  · rw [if_pos htop]
    by_cases hzero : mantissa = 0#52
    · rw [if_pos hzero]
      exact iff_of_false Bool.false_ne_true fun h => h.2 hzero
    · rw [if_neg hzero]
      exact iff_of_true rfl ⟨htop, hzero⟩
  · refine iff_of_false ?_ fun h => htop h.1
    rw [if_neg htop]
    by_cases hlow : exponent = 0#11
    · rw [if_pos hlow]
      by_cases hzero : mantissa = 0#52
      · rw [dif_pos hzero]
        exact Bool.false_ne_true
      · rw [dif_neg hzero]
        exact Bool.false_ne_true
    · rw [if_neg hlow]
      exact Bool.false_ne_true

theorem isNaN_pack (sign : BitVec 1) (exponent : BitVec 11) (mantissa : BitVec 52) :
    (UnpackedFloat.unpack Format.binary64 (UnpackedFloat.pack Format.binary64
      (ofFields sign exponent mantissa))).isNaN = (ofFields sign exponent mantissa).isNaN := by
  by_cases hnan : exponent = -1#11 ∧ mantissa ≠ 0#52
  · have hfields : ofFields sign exponent mantissa = .notANumber := by
      rw [ofFields, if_pos hnan.1, if_neg hnan.2]
    rw [hfields]
    rfl
  · rw [not_and, not_not] at hnan
    rw [pack_ofFields hnan, unpack_packComponents]

theorem isNaN_neg (x : Float) : (-x).isNaN = x.isNaN := by
  have hfields := unpack_eq_ofFields x.toBits.toBitVec
  change (UnpackedFloat.unpack Format.binary64 (UnpackedFloat.pack Format.binary64
    (UnpackedFloat.unpack Format.binary64 x.toBits.toBitVec).neg)).isNaN =
      (UnpackedFloat.unpack Format.binary64 x.toBits.toBitVec).isNaN
  rw [hfields, neg_ofFields, isNaN_pack, Bool.eq_iff_iff, isNaN_ofFields, isNaN_ofFields]

theorem isNaN_ofMagnitude {bits : ℕ} (h : bits ≤ infinityBits) :
    (ofMagnitude false bits).isNaN = false := by
  rw [infinityBits, Nat.pow_eq] at h
  have hvalue : (UInt64.ofNat (bits + 0)).toBitVec.toNat = bits := by
    simp
    omega
  rw [Bool.eq_false_iff]
  intro hnan
  change (UnpackedFloat.unpack Format.binary64 (UnpackedFloat.pack Format.binary64
    (UnpackedFloat.unpack Format.binary64 (UInt64.ofNat (bits + 0)).toBitVec))).isNaN = true at hnan
  have hfields := unpack_eq_ofFields (UInt64.ofNat (bits + 0)).toBitVec
  rw [hfields, isNaN_pack, isNaN_ofFields] at hnan
  have htop := congrArg BitVec.toNat hnan.1
  have hmantissa : (@unpackMantissa Format.binary64 (UInt64.ofNat (bits + 0)).toBitVec).toNat ≠ 0 :=
    fun hzero => hnan.2 (BitVec.eq_of_toNat_eq hzero)
  have hall : (-1#11).toNat = 2047 := rfl
  simp only [unpackExponent, unpackMantissa, BitVec.toNat_cast, BitVec.extractLsb_toNat,
    Nat.shiftRight_eq_div_pow, hvalue, hall] at htop hmantissa
  omega

end

theorem isNaN_nan : nan.isNaN = true := by
  rfl

theorem isNaN_zero : (0 : Float).isNaN = false := by
  rfl

theorem nearestBits_le (num den : ℕ) : nearestBits num den ≤ infinityBits := by
  rw [nearestBits]
  split
  · exact Nat.zero_le _
  · exact Nat.min_le_right _ _

theorem isNaN_ofNat (n : ℕ) : (ofNat n).isNaN = false :=
  isNaN_ofMagnitude (nearestBits_le n 1)

theorem isNaN_infinity : infinity.isNaN = false :=
  isNaN_ofMagnitude (Nat.le_refl _)

theorem isNaN_ofScaled (m : ℕ) (e : ℤ) : (ofScaled m e).isNaN = false := by
  unfold ofScaled
  dsimp only
  split_ifs
  · exact isNaN_ofMagnitude (Nat.zero_le _)
  · exact isNaN_infinity
  · exact isNaN_ofMagnitude (nearestBits_le _ _)

/-! ## Decimals -/

def IsRun (p : Char → Bool) (cs : List Char) : Prop :=
  cs ≠ [] ∧ ∀ c ∈ cs, p c = true

def IsSign (cs : List Char) : Prop :=
  cs = [] ∨ cs = ['+'] ∨ cs = ['-']

inductive IsExponent : List Char → Prop
  | absent : IsExponent []
  | given {e : Char} {sign digits : List Char} : e = 'e' ∨ e = 'E' → IsSign sign →
      IsRun isDigit digits → IsExponent (e :: (sign ++ digits))

inductive IsDecimal : List Char → Prop
  | whole {digits exponent : List Char} : IsRun isDigit digits → IsExponent exponent →
      IsDecimal (digits ++ exponent)
  | pointed {digits fraction exponent : List Char} : IsRun isDigit digits →
      (∀ c ∈ fraction, isDigit c = true) → IsExponent exponent →
      IsDecimal (digits ++ '.' :: (fraction ++ exponent))
  | fraction {fraction exponent : List Char} : IsRun isDigit fraction → IsExponent exponent →
      IsDecimal ('.' :: (fraction ++ exponent))

theorem isRun_iff {p : Char → Bool} {cs : List Char} :
    IsRun p cs ↔ cs.takeWhile p ≠ [] ∧ cs.dropWhile p = [] := by
  rw [IsRun, List.dropWhile_eq_nil_iff]
  refine and_congr_left fun hall => ?_
  rw [List.takeWhile_eq_self_iff.2 hall]

theorem exists_sign (cs : List Char) : ∃ sign, IsSign sign ∧ cs = sign ++ (spanSign cs).2 := by
  unfold spanSign
  split
  · exact ⟨['+'], .inr (.inl rfl), rfl⟩
  · exact ⟨['-'], .inr (.inr rfl), rfl⟩
  · exact ⟨[], .inl rfl, rfl⟩

theorem spanSign_digits {sign digits : List Char} (hsign : IsSign sign)
    (hdigits : IsRun isDigit digits) : (spanSign (sign ++ digits)).2 = digits := by
  rcases hsign with rfl | rfl | rfl
  · obtain ⟨d, ds, rfl⟩ := List.exists_cons_of_ne_nil hdigits.1
    have hd : isDigit d = true := hdigits.2 d List.mem_cons_self
    rw [List.nil_append, spanSign_other]
    all_goals
      rintro rfl
      exact absurd hd (by decide)
  · rfl
  · rfl

theorem isExponent_iff {cs : List Char} :
    IsExponent cs ↔ cs = [] ∨ ∃ negative digits, spanExponent cs = some (negative, digits, []) := by
  constructor
  · intro h
    cases h with
    | absent => exact .inl rfl
    | given he hsign hdigits =>
      have hrun := isRun_iff.1 hdigits
      rw [spanExponent_eq, if_pos he, spanSign_digits hsign hdigits,
        if_neg (by simpa using hrun.1), hrun.2]
      exact .inr ⟨_, _, rfl⟩
  · rintro (rfl | ⟨negative, digits, h⟩)
    · exact .absent
    · cases cs with
      | nil => cases h
      | cons c cs =>
        rw [spanExponent_eq, Option.ite_none_right_eq_some, Option.ite_none_left_eq_some] at h
        obtain ⟨hc, hne, h⟩ := h
        obtain ⟨sign, hsign, hcs⟩ := exists_sign cs
        simp only [Option.some.injEq, Prod.mk.injEq] at h
        rw [hcs]
        exact .given hc hsign (isRun_iff.2 ⟨by simpa using hne, h.2.2⟩)

theorem IsExponent.head {exponent : List Char} (h : IsExponent exponent) :
    ∀ c ∈ exponent.head?, isDigit c = false ∧ c ≠ '.' := by
  intro c hc
  cases h with
  | absent => cases hc
  | given he _ _ =>
    obtain rfl := Option.some.inj hc
    rcases he with rfl | rfl <;> decide

theorem withExponent_iff {whole fraction tail : List Char} :
    (∃ n, withExponent whole fraction tail = some (n, [])) ↔ IsExponent tail := by
  rw [isExponent_iff, withExponent]
  cases hspan : spanExponent tail with
  | none => simp
  | some parts =>
    obtain ⟨negative, digits, rest⟩ := parts
    have hne : tail ≠ [] := by
      rintro rfl
      cases hspan
    simp [hne]

theorem spanNumeral_withExponent (cs : List Char) :
    spanNumeral cs =
      if (cs.takeWhile isDigit).isEmpty ∧ (spanFraction (cs.dropWhile isDigit)).1.isEmpty then none
      else withExponent (cs.takeWhile isDigit) (spanFraction (cs.dropWhile isDigit)).1
        (spanFraction (cs.dropWhile isDigit)).2 := by
  rw [spanNumeral_eq]
  rfl

theorem IsDecimal.spanNumeral {cs : List Char} (h : IsDecimal cs) :
    ∃ n, spanNumeral cs = some (n, []) := by
  cases h with
  | whole hdigits hexponent =>
    rw [spanNumeral_whole hdigits.2 hdigits.1 hexponent.head]
    exact withExponent_iff.2 hexponent
  | pointed hdigits hfraction hexponent =>
    rw [spanNumeral_point hdigits.2 hdigits.1 hfraction fun c hc => (hexponent.head c hc).1]
    exact withExponent_iff.2 hexponent
  | @fraction fraction exponent hfraction hexponent =>
    have hstop : ∀ c ∈ exponent.head?, isDigit c = false := fun c hc => (hexponent.head c hc).1
    have hparts : spanFraction ('.' :: (fraction ++ exponent)) = (fraction, exponent) := by
      rw [spanFraction, takeWhile_append_stop hfraction.2 hstop,
        dropWhile_append_stop hfraction.2 hstop]
    have hpoint : isDigit '.' = false := by decide
    rw [spanNumeral_withExponent, List.takeWhile_cons_of_neg (by simp [hpoint]),
      List.dropWhile_cons_of_neg (by simp [hpoint]), hparts,
      if_neg (by simpa using hfraction.1)]
    exact withExponent_iff.2 hexponent

theorem isDecimal_iff {cs : List Char} : IsDecimal cs ↔ ∃ n, spanNumeral cs = some (n, []) := by
  refine ⟨IsDecimal.spanNumeral, ?_⟩
  rintro ⟨n, h⟩
  rw [spanNumeral_withExponent, Option.ite_none_left_eq_some] at h
  obtain ⟨hne, h⟩ := h
  have hexponent := withExponent_iff.1 ⟨n, h⟩
  have hall : ∀ c ∈ cs.takeWhile isDigit, isDigit c = true := of_mem_takeWhile
  have hcs := List.takeWhile_append_dropWhile (p := isDigit) (l := cs)
  generalize cs.takeWhile isDigit = whole at hne hcs hall
  generalize cs.dropWhile isDigit = behind at hne hexponent hcs
  subst hcs
  rw [List.isEmpty_iff, List.isEmpty_iff, not_and] at hne
  unfold spanFraction at hne hexponent
  split at hexponent
  · -- There is a point; digits may lack on one side of it.
    rename_i cs
    have hfraction : ∀ c ∈ cs.takeWhile isDigit, isDigit c = true := of_mem_takeWhile
    rw [← List.takeWhile_append_dropWhile (p := isDigit) (l := cs)]
    by_cases hwhole : whole = []
    · rw [hwhole]
      exact .fraction ⟨hne hwhole, hfraction⟩ hexponent
    · exact .pointed ⟨hwhole, hall⟩ hfraction hexponent
  · rename_i hpoint
    refine .whole ⟨fun hwhole => ?_, hall⟩ hexponent
    have := hne hwhole
    split at this
    · exact hpoint _ rfl
    · exact this rfl

theorem IsDecimal.second {c : Char} {cs : List Char} (h : IsDecimal ('0' :: c :: cs)) :
    isDigit c = true ∨ c = '.' ∨ c = 'e' ∨ c = 'E' := by
  by_contra hc
  rw [not_or, not_or, not_or, Bool.not_eq_true] at hc
  have hends : EndsNumeral (c :: cs) := by
    intro d hd
    obtain rfl := Option.some.inj hd
    exact hc
  have hread : Number.spanNumeral (['0'] ++ c :: cs) = withExponent ['0'] [] (c :: cs) :=
    spanNumeral_whole (forall_of_all (by decide)) (by simp) fun d hd =>
      ⟨(hends d hd).1, (hends d hd).2.1⟩
  obtain ⟨n, hspan⟩ := h.spanNumeral
  rw [List.singleton_append, withExponent, spanExponent_none hends, hspan] at hread
  cases hread

theorem IsDecimal.first {c : Char} {cs : List Char} (h : IsDecimal (c :: cs)) :
    isDigit c = true ∨ c = '.' := by
  have hrun : ∀ {digits tail}, IsRun isDigit digits → c :: cs = digits ++ tail →
      isDigit c = true := by
    intro digits tail hdigits heq
    obtain ⟨d, ds, rfl⟩ := List.exists_cons_of_ne_nil hdigits.1
    obtain ⟨rfl, -⟩ := List.cons.inj heq
    exact hdigits.2 c List.mem_cons_self
  generalize htext : c :: cs = text at h hrun
  cases h with
  | whole hdigits _ => exact .inl (hrun hdigits rfl)
  | pointed hdigits _ _ => exact .inl (hrun hdigits rfl)
  | fraction _ _ => exact .inr (List.cons.inj htext).1

end VueToSan.Number

namespace VueToSan.Expr

open VueToSan.Text VueToSan.Number

/-! ## Digits in a base -/

inductive NamesBase : Char → ℕ → Prop
  | sixteen {c : Char} : c = 'x' ∨ c = 'X' → NamesBase c 16
  | eight {c : Char} : c = 'o' ∨ c = 'O' → NamesBase c 8
  | two {c : Char} : c = 'b' ∨ c = 'B' → NamesBase c 2

/-- The text is the prefix of a base, the sign and digits that stand for the number. -/
inductive IsBased (sign : List Char) : List Char → ℕ → Prop
  | mk {c : Char} {base : ℕ} {digits : List Char} : NamesBase c base →
      IsRun (isDigitOf base) digits →
      IsBased sign ('0' :: c :: (sign ++ digits)) (ofDigits base digits)

theorem NamesBase.le {c : Char} {base : ℕ} (h : NamesBase c base) : base ≤ 36 := by
  cases h <;> omega

theorem NamesBase.radix? {c : Char} {base : ℕ} (h : NamesBase c base) (digits : List Char) :
    radix? ('0' :: c :: digits) = some (base, digits) := by
  rcases h with h | h | h <;> rcases h with rfl | rfl <;> rfl

theorem radix?_eq_some {cs digits : List Char} {base : ℕ} (h : radix? cs = some (base, digits)) :
    ∃ c, NamesBase c base ∧ cs = '0' :: c :: digits := by
  unfold Expr.radix? at h
  split at h <;> cases h
  · exact ⟨'x', .sixteen (.inl rfl), rfl⟩
  · exact ⟨'X', .sixteen (.inr rfl), rfl⟩
  · exact ⟨'o', .eight (.inl rfl), rfl⟩
  · exact ⟨'O', .eight (.inr rfl), rfl⟩
  · exact ⟨'b', .two (.inl rfl), rfl⟩
  · exact ⟨'B', .two (.inr rfl), rfl⟩

theorem readUnsigned?_eq {base : ℕ} {cs : List Char} (hcs : ∀ rest, cs ≠ '+' :: rest) :
    readUnsigned? base cs =
      if cs.isEmpty || !cs.all (isDigitOf base) then none else some (ofDigits base cs) := by
  unfold readUnsigned?
  split
  · exact absurd rfl (hcs _)
  · rfl

theorem readDigits_eq_some {base n : ℕ} {digits : List Char} :
    (if digits.isEmpty || !digits.all (isDigitOf base) then none
      else some (ofDigits base digits)) = some n ↔
      IsRun (isDigitOf base) digits ∧ ofDigits base digits = n := by
  rw [Option.ite_none_left_eq_some, Option.some_inj]
  simp [IsRun]

theorem readUnsigned?_eq_some {base n : ℕ} (hbase : base ≤ 36) {cs : List Char} :
    readUnsigned? base cs = some n ↔
      ∃ digits, (cs = digits ∨ cs = '+' :: digits) ∧ IsRun (isDigitOf base) digits ∧
        ofDigits base digits = n := by
  by_cases hcs : ∃ rest, cs = '+' :: rest
  · obtain ⟨rest, rfl⟩ := hcs
    have hread : readUnsigned? base ('+' :: rest) = if rest.isEmpty || !rest.all (isDigitOf base)
      then none else some (ofDigits base rest) := rfl
    have hplus : isDigitOf base '+' = false := by
      rw [isDigitOf, decide_eq_false_iff_not, Nat.not_lt]
      exact hbase
    rw [hread, readDigits_eq_some]
    constructor
    · exact fun h => ⟨rest, .inr rfl, h⟩
    · rintro ⟨digits, rfl | heq, hrun, hn⟩
      · exact absurd (hrun.2 '+' List.mem_cons_self) (by simp [hplus])
      · obtain ⟨-, rfl⟩ := List.cons.inj heq
        exact ⟨hrun, hn⟩
  · rw [not_exists] at hcs
    rw [readUnsigned?_eq hcs, readDigits_eq_some]
    constructor
    · exact fun h => ⟨cs, .inl rfl, h⟩
    · rintro ⟨digits, rfl | heq, h⟩
      · exact h
      · exact absurd heq (hcs digits)

/-! ## Numeric literals -/

def IsPlain (cs : List Char) : Prop :=
  cs = "Infinity".toList ∨ IsDecimal cs

/-- A numeric literal as strings hold it. -/
inductive IsNumericText : List Char → Prop
  | empty : IsNumericText []
  | plain {sign cs : List Char} : IsSign sign → IsPlain cs → IsNumericText (sign ++ cs)
  | based {cs : List Char} {n : ℕ} : IsBased [] cs n → IsNumericText cs

theorem isBased_iff {sign digits : List Char} {c : Char} {base n : ℕ} (h : NamesBase c base) :
    IsBased sign ('0' :: c :: digits) n ↔
      ∃ ds, digits = sign ++ ds ∧ IsRun (isDigitOf base) ds ∧ ofDigits base ds = n := by
  constructor
  · rintro ⟨hc, hrun⟩
    obtain ⟨rfl, -⟩ := Prod.mk.inj (Option.some.inj ((h.radix? []).symm.trans (hc.radix? [])))
    exact ⟨_, rfl, hrun, rfl⟩
  · rintro ⟨ds, rfl, hrun, rfl⟩
    exact .mk h hrun

theorem IsBased.radix? {sign cs : List Char} {n : ℕ} (h : IsBased sign cs n) :
    radix? cs ≠ none := by
  obtain ⟨hc, -⟩ := h
  rw [hc.radix?]
  exact Option.some_ne_none _

theorem readUnsigned?_eq_some_iff {c : Char} {base n : ℕ} (h : NamesBase c base)
    {digits : List Char} :
    readUnsigned? base digits = some n ↔
      IsBased [] ('0' :: c :: digits) n ∨ IsBased ['+'] ('0' :: c :: digits) n := by
  rw [readUnsigned?_eq_some h.le, isBased_iff h, isBased_iff h, ← exists_or]
  simp only [List.nil_append, List.singleton_append, or_and_right]

theorem IsPlain.first {c : Char} {cs : List Char} (h : IsPlain (c :: cs)) :
    c = 'I' ∨ isDigit c = true ∨ c = '.' := by
  rcases h with h | h
  · exact .inl (List.cons.inj h).1
  · exact .inr h.first

theorem IsPlain.radix? {cs : List Char} (h : IsPlain cs) : radix? cs = none := by
  by_contra hne
  obtain ⟨⟨base, digits⟩, hradix⟩ := Option.ne_none_iff_exists'.1 hne
  obtain ⟨c, hbase, rfl⟩ := radix?_eq_some hradix
  rcases h with h | h
  · cases h
  · have hsecond := h.second
    rcases hbase with hc | hc | hc <;> rcases hc with rfl | rfl <;> revert hsecond <;> decide

theorem isNumericText_cons {c : Char} {cs : List Char} :
    IsNumericText (c :: cs) ↔
      (c = '+' ∨ c = '-') ∧ IsPlain cs ∨ IsPlain (c :: cs) ∨ ∃ n, IsBased [] (c :: cs) n := by
  constructor
  · intro h
    generalize htext : c :: cs = text at h
    cases h with
    | empty => cases htext
    | plain hsign hplain =>
      rcases hsign with rfl | rfl | rfl
      · exact .inr (.inl hplain)
      · obtain ⟨rfl, rfl⟩ := List.cons.inj htext
        exact .inl ⟨.inl rfl, hplain⟩
      · obtain ⟨rfl, rfl⟩ := List.cons.inj htext
        exact .inl ⟨.inr rfl, hplain⟩
    | based hbased => exact .inr (.inr ⟨_, hbased⟩)
  · rintro (⟨rfl | rfl, h⟩ | h | ⟨n, h⟩)
    · exact .plain (.inr (.inl rfl)) h
    · exact .plain (.inr (.inr rfl)) h
    · exact .plain (.inl rfl) h
    · exact .based h

/-! ## Conversions -/

theorem isNaN_unsignedNumber {cs : List Char} :
    (unsignedNumber cs).isNaN = true ↔ ¬IsPlain cs := by
  unfold unsignedNumber
  by_cases hinfinity : cs = "Infinity".toList
  · rw [if_pos hinfinity, isNaN_infinity]
    simp [IsPlain, hinfinity]
  · rw [if_neg hinfinity, IsPlain, or_iff_right hinfinity, isDecimal_iff]
    split
    · rename_i n hspan
      rw [Numeral.value, isNaN_ofScaled]
      simp [hspan]
    · rename_i hspan
      rw [isNaN_nan]
      simpa using hspan

section

variable {s : String} {c : Char} {cs : List Char}

theorem isNaN_signed (hc : c = '+' ∨ c = '-') (hs : trim s.toList = c :: cs) :
    (textNumber s).isNaN = true ↔ ¬IsPlain cs := by
  have htext : textNumber s =
      if cs.head? = some '+' ∨ cs.head? = some '-' then Number.nan
      else if (radix? cs).isSome then Number.nan
      else if c = '-' then -(unsignedNumber cs) else unsignedNumber cs := by
    unfold textNumber
    rcases hc with rfl | rfl <;> simp only [hs] <;> cases radix? cs <;> rfl
  rw [htext]
  split_ifs with hsign hradix hminus
  · have hplain : ¬IsPlain cs := by
      intro hplain
      rcases hsign with hsign | hsign
      all_goals
        obtain ⟨tail, rfl⟩ := List.head?_eq_some_iff.1 hsign
        exact absurd hplain.first (by decide)
    exact iff_of_true isNaN_nan hplain
  · have hplain : ¬IsPlain cs := fun hplain => by simp [hplain.radix?] at hradix
    exact iff_of_true isNaN_nan hplain
  · rw [isNaN_neg, isNaN_unsignedNumber]
  · exact isNaN_unsignedNumber

theorem textNumber_unsigned (hc : ¬(c = '+' ∨ c = '-')) (hs : trim s.toList = c :: cs) :
    textNumber s = match radix? (c :: cs) with
      | some (base, digits) => match readUnsigned? base digits with
        | some n => if n < UInt64.size then Number.ofNat n else Number.nan
        | none => Number.nan
      | none => unsignedNumber (c :: cs) := by
  rw [not_or] at hc
  unfold textNumber
  cases hradix : radix? (c :: cs) with
  | none => simp [hs, hc.1, hc.2, hradix]
  | some parts =>
    obtain ⟨base, digits⟩ := parts
    cases hread : readUnsigned? base digits <;> simp [hs, hc.1, hc.2, hradix, hread]

theorem isNaN_plain (hc : ¬(c = '+' ∨ c = '-')) (hs : trim s.toList = c :: cs)
    (hradix : radix? (c :: cs) = none) :
    (textNumber s).isNaN = true ↔ ¬IsPlain (c :: cs) := by
  rw [textNumber_unsigned hc hs, hradix, isNaN_unsignedNumber]

theorem isNaN_prefixed {base : ℕ} (hc : NamesBase c base) (hs : trim s.toList = '0' :: c :: cs) :
    (textNumber s).isNaN = true ↔ ∀ n, readUnsigned? base cs = some n → UInt64.size ≤ n := by
  rw [textNumber_unsigned (by decide) hs, hc.radix?]
  dsimp only
  cases readUnsigned? base cs with
  | none => exact iff_of_true isNaN_nan fun n hn => absurd hn (Option.some_ne_none n).symm
  | some n =>
    simp only [Option.some.injEq, forall_eq']
    split_ifs with hn
    · rw [isNaN_ofNat]
      exact iff_of_false Bool.false_ne_true (Nat.not_le_of_lt hn)
    · exact iff_of_true isNaN_nan (Nat.le_of_not_lt hn)

theorem isNaN_based {base : ℕ} (hc : NamesBase c base) (hs : trim s.toList = '0' :: c :: cs) :
    (textNumber s).isNaN = true ↔
      (¬(∃ n, IsBased [] ('0' :: c :: cs) n) ∧
          ¬∃ n < UInt64.size, IsBased ['+'] ('0' :: c :: cs) n) ∨
        ∃ n ≥ UInt64.size, IsBased [] ('0' :: c :: cs) n := by
  rw [isNaN_prefixed hc hs]
  have hread : ∀ n, readUnsigned? base cs = some n ↔
      IsBased [] ('0' :: c :: cs) n ∨ IsBased ['+'] ('0' :: c :: cs) n :=
    fun n => readUnsigned?_eq_some_iff hc
  constructor
  · intro hall
    by_cases hdigits : ∃ n, IsBased [] ('0' :: c :: cs) n
    · obtain ⟨n, hn⟩ := hdigits
      exact .inr ⟨n, hall n ((hread n).2 (.inl hn)), hn⟩
    · refine .inl ⟨hdigits, ?_⟩
      rintro ⟨n, hlt, hn⟩
      exact Nat.not_le_of_lt hlt (hall n ((hread n).2 (.inr hn)))
  · rintro (⟨hdigits, hplus⟩ | ⟨m, hm, hdigits⟩) n hn
    · rcases (hread n).1 hn with h | h
      · exact absurd ⟨n, h⟩ hdigits
      · exact Nat.le_of_not_lt fun hlt => hplus ⟨n, hlt, h⟩
    · obtain rfl : m = n := Option.some.inj (((hread m).2 (.inl hdigits)).symm.trans hn)
      exact hm

end

/-- Which texts are not converted: those that are no numeric literal, a plus sign behind the prefix
of a base aside, and the literals with a prefix for a number that does not fit into 64 bits. -/
theorem isNaN_toNumber (s : String) :
    (Constant.string s).toNumber.isNaN = true ↔
      (¬IsNumericText (trim s.toList) ∧ ¬∃ n < UInt64.size, IsBased ['+'] (trim s.toList) n) ∨
        ∃ n ≥ UInt64.size, IsBased [] (trim s.toList) n := by
  rw [Constant.toNumber]
  cases hs : trim s.toList with
  | nil =>
    have hzero : textNumber s = 0 := by
      unfold textNumber
      simp only [hs]
      rfl
    have hbased : ∀ sign n, ¬IsBased sign [] n := fun _ _ h => h.radix? rfl
    rw [hzero, isNaN_zero]
    simp [IsNumericText.empty, hbased]
  | cons c cs =>
    by_cases hsign : c = '+' ∨ c = '-'
    · -- Without the sign no literal starts like this.
      have hplain : ¬IsPlain (c :: cs) := by
        intro h
        rcases hsign with rfl | rfl <;> exact absurd h.first (by decide)
      have hbased : ∀ sign n, ¬IsBased sign (c :: cs) n := by
        intro sign n h
        obtain ⟨hbase, -⟩ := h
        revert hsign
        decide
      rw [isNaN_signed hsign hs, isNumericText_cons]
      simp [hsign, hplain, hbased]
    · cases hradix : radix? (c :: cs) with
      | none =>
        have hbased : ∀ sign n, ¬IsBased sign (c :: cs) n := fun _ _ h => h.radix? hradix
        rw [isNaN_plain hsign hs hradix, isNumericText_cons]
        simp [hsign, hbased]
      | some parts =>
        obtain ⟨base, digits⟩ := parts
        obtain ⟨d, hbase, htext⟩ := radix?_eq_some hradix
        have hplain : ¬IsPlain (c :: cs) := fun h => by simp [h.radix?] at hradix
        have hnumeric : IsNumericText (c :: cs) ↔ ∃ n, IsBased [] (c :: cs) n := by
          simp [isNumericText_cons, hsign, hplain]
        rw [hnumeric, htext]
        exact isNaN_based hbase (hs.trans htext)

/-- A plus sign behind a prefix is converted, and a literal of 65 bits is not. -/
theorem prefixed_plus_converted :
    ((Constant.string "0x+1").toNumber.isNaN = false ∧ ¬IsNumericText (trim "0x+1".toList)) ∧
      (Constant.string "0x10000000000000000").toNumber.isNaN = true ∧
        IsNumericText (trim "0x10000000000000000".toList) := by
  have hplus : trim "0x+1".toList = '0' :: 'x' :: ['+', '1'] := by decide
  have hlong : trim "0x10000000000000000".toList =
      '0' :: 'x' :: ([] ++ '1' :: List.replicate 16 '0') := by decide
  refine ⟨⟨by decide +kernel, ?_⟩, by decide +kernel, ?_⟩
  · have hplain : ¬IsPlain ('0' :: 'x' :: ['+', '1']) := fun h => absurd h.radix? (by simp [radix?])
    rw [hplus, isNumericText_cons]
    rintro (⟨hsign, -⟩ | h | ⟨n, h⟩)
    · revert hsign
      decide
    · exact hplain h
    · obtain ⟨ds, rfl, hrun, -⟩ := (isBased_iff (.sixteen (.inl rfl))).1 h
      exact absurd (hrun.2 '+' List.mem_cons_self) (by decide)
  · rw [hlong]
    exact .based (.mk (.sixteen (.inl rfl)) ⟨by decide, forall_of_all (by decide)⟩)

end VueToSan.Expr
