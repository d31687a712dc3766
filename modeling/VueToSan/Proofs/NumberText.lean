import VueToSan.Expr.Constant
import VueToSan.Proofs.Characters
import VueToSan.Proofs.ShortestDecimal

/-!
# Number texts read back

The text of a finite number, less its sign, is a numeral, and its value is the number without its
sign.
-/

namespace VueToSan.Number

open VueToSan.Text

/-! ## Doubles by their bits -/

section

open Float.Model Float.Model.UnpackedFloat

def ofFields (sign : BitVec 1) (exponent : BitVec 11) (mantissa : BitVec 52) : UnpackedFloat :=
  if exponent = -1#11 then
    if mantissa = 0#52 then .infinity (Sign.ofBitVec sign) else .notANumber
  else if exponent = 0#11 then
    if h : mantissa = 0#52 then .zero (Sign.ofBitVec sign)
    else .finite (Sign.ofBitVec sign) mantissa.toNat (exponent.toNat - (1023 + 52 : ℤ) + 1)
      (by simpa [BitVec.toNat_pos, BitVec.pos_iff_ne_zero])
  else
    .finite (Sign.ofBitVec sign) (1#1 ++ mantissa).toNat (exponent.toNat - (1023 + 52 : ℤ))
      (by rw [BitVec.toNat_append]; exact Nat.lt_of_lt_of_le (by decide) Nat.left_le_or)

theorem unpack_eq_ofFields (b : BitVec 64) :
    UnpackedFloat.unpack Format.binary64 b =
      ofFields (@unpackSign Format.binary64 b) (@unpackExponent Format.binary64 b)
        (@unpackMantissa Format.binary64 b) := rfl

theorem apply_ofFields {f : UnpackedFloat → UnpackedFloat} {sign sign' : BitVec 1}
    (hinfinity : f (.infinity (Sign.ofBitVec sign)) = .infinity (Sign.ofBitVec sign'))
    (hnan : f .notANumber = .notANumber)
    (hzero : f (.zero (Sign.ofBitVec sign)) = .zero (Sign.ofBitVec sign'))
    (hfinite : ∀ m e hm,
      f (.finite (Sign.ofBitVec sign) m e hm) = .finite (Sign.ofBitVec sign') m e hm)
    (exponent : BitVec 11) (mantissa : BitVec 52) :
    f (ofFields sign exponent mantissa) = ofFields sign' exponent mantissa := by
  unfold ofFields
  by_cases htop : exponent = -1#11
  · rw [if_pos htop, if_pos htop]
    by_cases hnone : mantissa = 0#52
    · rw [if_pos hnone, if_pos hnone]
      exact hinfinity
    · rw [if_neg hnone, if_neg hnone]
      exact hnan
  · rw [if_neg htop, if_neg htop]
    by_cases hlow : exponent = 0#11
    · rw [if_pos hlow, if_pos hlow]
      by_cases hnone : mantissa = 0#52
      · rw [dif_pos hnone, dif_pos hnone]
        exact hzero
      · rw [dif_neg hnone, dif_neg hnone]
        exact hfinite ..
    · rw [if_neg hlow, if_neg hlow]
      exact hfinite ..

theorem ofFields_unsigned (sign : BitVec 1) (exponent : BitVec 11) (mantissa : BitVec 52) :
    ofFields 0#1 exponent mantissa = (ofFields sign exponent mantissa).abs :=
  (apply_ofFields rfl rfl rfl (fun _ _ _ => rfl) exponent mantissa).symm

theorem unpack_unsigned {b c : BitVec 64} (h : c.toNat = b.toNat % 2 ^ 63) :
    UnpackedFloat.unpack Format.binary64 c = (UnpackedFloat.unpack Format.binary64 b).abs := by
  have hmantissa : @unpackMantissa Format.binary64 c = @unpackMantissa Format.binary64 b := by
    apply BitVec.eq_of_toNat_eq
    simp only [unpackMantissa, BitVec.toNat_cast, BitVec.extractLsb_toNat, h]
    omega
  have hexponent : @unpackExponent Format.binary64 c = @unpackExponent Format.binary64 b := by
    apply BitVec.eq_of_toNat_eq
    simp only [unpackExponent, BitVec.toNat_cast, BitVec.extractLsb_toNat, h,
      Nat.shiftRight_eq_div_pow]
    omega
  have hsign : @unpackSign Format.binary64 c = 0#1 := by
    apply BitVec.eq_of_toNat_eq
    have hbit : (@unpackSign Format.binary64 c).toNat = (c.toNat >>> 63) % 2 ^ 1 := rfl
    rw [hbit, h, Nat.shiftRight_eq_div_pow]
    simp
  rw [unpack_eq_ofFields, unpack_eq_ofFields, hmantissa, hexponent, hsign, ← ofFields_unsigned]

end

theorem abs_eq (x : Float) : x.abs = ofMagnitude false (x.toBits.toNat % 2 ^ 63) := by
  have hbits : (UInt64.ofNat (x.toBits.toNat % 2 ^ 63)).toBitVec.toNat =
      x.toBits.toBitVec.toNat % 2 ^ 63 := by
    simp
    omega
  unfold Float.abs Float.Model.abs ofMagnitude Float.ofBits Float.Model.ofBits
  rw [if_neg (by simp), Nat.add_zero, unpack_unsigned hbits]
  rfl

theorem decode_finite {x : Float} {negative : Bool} {m : ℕ} {e : ℤ}
    (h : decode x = .finite negative m e) :
    magnitudeBits m e = x.toBits.toNat % 2 ^ 63 ∧ (0 < m → IsDouble m e) ∧
      (m = 0 → e = -1074) := by
  have hbits : x.toBits.toNat < 2 ^ 64 := x.toBits.toNat_lt
  simp only [decode, Nat.pow_eq] at h
  generalize x.toBits.toNat = b at h hbits ⊢
  split at h
  · split at h <;> cases h
  · rename_i hinf
    split at h
    · rename_i hsub
      obtain ⟨-, rfl, rfl⟩ := Decoded.finite.inj h
      refine ⟨?_, fun hpos => ⟨hpos, by omega, by omega, by omega, fun _ => rfl⟩, fun _ => rfl⟩
      simp only [magnitudeBits]
      omega
    · rename_i hnormal
      obtain ⟨-, rfl, rfl⟩ := Decoded.finite.inj h
      refine ⟨?_, fun hpos => ⟨hpos, by omega, by omega, by omega, fun hlt => by omega⟩,
        fun hzero => by omega⟩
      simp only [magnitudeBits]
      omega

/-! ## Scaled numbers -/

theorem length_bracket {n : ℕ} (hn : 0 < n) :
    (10 : ℚ) ^ (((Nat.toDigits 10 n).length : ℤ) - 1) ≤ n ∧
      (n : ℚ) < 10 ^ ((Nat.toDigits 10 n).length : ℤ) := by
  have hlen := Nat.length_toDigits_pos (b := 10) (n := n)
  constructor
  · have hpow : (10 : ℚ) ^ ((Nat.toDigits 10 n).length - 1) ≤ n := by
      exact_mod_cast pow_length_le hn
    rwa [← zpow_natCast, Nat.cast_sub (by omega), Nat.cast_one] at hpow
  · have hlt : n < 10 ^ (Nat.toDigits 10 n).length := by
      rw [← Nat.length_toDigits_le_iff (by norm_num) hlen]
    rw [zpow_natCast]
    exact_mod_cast hlt

theorem RoundsTo.lt_top {x : ℚ} {m : ℕ} {e : ℤ} (hd : IsDouble m e) (h : RoundsTo x m e) :
    x < 10 ^ (309 : ℤ) := by
  have hm : (m : ℚ) + 1 ≤ 2 ^ 53 := by exact_mod_cast hd.lt
  have hpow : (2 : ℕ) ^ 1024 < 10 ^ 309 := by decide +kernel
  have hhigh := h.weak.2
  rw [high_eq] at hhigh
  calc x ≤ (m + 1 / 2) * 2 ^ e := hhigh
    _ ≤ 2 ^ 53 * 2 ^ e := mul_le_mul_of_nonneg_right (by linarith) (two_zpow_pos e).le
    _ ≤ 2 ^ 53 * 2 ^ (971 : ℤ) :=
        mul_le_mul_of_nonneg_left (two_zpow_mono hd.greatest) (by norm_num)
    _ = ((2 ^ 1024 : ℕ) : ℚ) := by
        rw [Nat.cast_pow, Nat.cast_ofNat, ← zpow_natCast, ← zpow_natCast,
          ← zpow_add₀ two_ne_zero]
        rfl
    _ < ((10 ^ 309 : ℕ) : ℚ) := by exact_mod_cast hpow
    _ = 10 ^ (309 : ℤ) := by
        rw [Nat.cast_pow]
        rfl

theorem RoundsTo.bottom_lt {x : ℚ} {m : ℕ} {e : ℤ} (hd : IsDouble m e) (h : RoundsTo x m e) :
    (10 : ℚ) ^ (-330 : ℤ) < x := by
  have hm : (1 : ℚ) ≤ m := by exact_mod_cast hd.pos
  have hgap := lowGap_le m e
  have hpow : (2 : ℕ) ^ 1075 < 10 ^ 330 := by decide +kernel
  have hlow := h.weak.1
  rw [low_eq hd.pos] at hlow
  calc (10 : ℚ) ^ (-330 : ℤ) < 2 ^ (-1075 : ℤ) := by
        rw [zpow_neg, zpow_neg, inv_lt_inv₀ (by positivity) (by positivity)]
        exact_mod_cast hpow
    _ = 1 / 2 * 2 ^ (-1074 : ℤ) := by
        rw [show (-1075 : ℤ) = -1 + -1074 by norm_num, zpow_add₀ two_ne_zero]
        norm_num
    _ ≤ 1 / 2 * 2 ^ e :=
        mul_le_mul_of_nonneg_left (two_zpow_mono hd.least) (by norm_num)
    _ ≤ (m - lowGap m e / 4) * 2 ^ e :=
        mul_le_mul_of_nonneg_right (by linarith) (two_zpow_pos e).le
    _ ≤ x := hlow

theorem RoundsTo.factor_pos {c m : ℕ} {k e : ℤ} (hd : IsDouble m e)
    (h : RoundsTo (c * 10 ^ k) m e) : 0 < c := by
  rw [Nat.pos_iff_ne_zero]
  rintro rfl
  have hbottom := h.bottom_lt hd
  rw [Nat.cast_zero, zero_mul] at hbottom
  exact absurd hbottom (zpow_pos (by norm_num) _).not_gt

/-- A decimal that rounds to a double is read as that double: it is neither too small nor too large
to be looked at. -/
theorem ofScaled_of_roundsTo {m n : ℕ} {e k : ℤ} (hd : IsDouble m e)
    (h : RoundsTo (n * 10 ^ k) m e) : ofScaled n k = ofMagnitude false (magnitudeBits m e) := by
  have htop := h.lt_top hd
  have hbottom := h.bottom_lt hd
  have hn := h.factor_pos hd
  obtain ⟨hlow, hhigh⟩ := length_bracket hn
  have hpos : (0 : ℚ) < 10 ^ k := zpow_pos (by norm_num) k
  have hsize : -330 < ((Nat.toDigits 10 n).length : ℤ) + k := by
    rw [← zpow_lt_zpow_iff_right₀ (show (1 : ℚ) < 10 by norm_num), zpow_add₀ (by norm_num)]
    exact hbottom.trans (mul_lt_mul_of_pos_right hhigh hpos)
  have hsize' : ((Nat.toDigits 10 n).length : ℤ) - 1 + k < 309 := by
    rw [← zpow_lt_zpow_iff_right₀ (show (1 : ℚ) < 10 by norm_num), zpow_add₀ (by norm_num)]
    exact (mul_le_mul_of_nonneg_right hlow hpos.le).trans_lt htop
  have hratio : ((n * 10 ^ k.toNat : ℕ) : ℚ) / (10 ^ (-k).toNat : ℕ) = n * 10 ^ k := by
    rw [zpow_eq_div (by norm_num) k]
    push_cast
    ring
  unfold ofScaled
  simp only [Nat.pow_eq]
  rw [if_neg (by omega), if_neg (by omega), ofRatio,
    nearestBits_of_roundsTo hd (by positivity) (by positivity) (hratio ▸ h)]

/-! ## Digits -/

theorem isDigit_of_char {c : Char} (h : c.isDigit = true) : isDigit c = true := by
  simp only [Char.isDigit, Bool.and_eq_true, decide_eq_true_eq, ge_iff_le,
    UInt32.le_iff_toNat_le] at h
  exact isDigit_iff.2 h

theorem ofDigits_eq {cs : List Char} (hcs : ∀ c ∈ cs, isDigit c = true) :
    ofDigits 10 cs = Nat.ofDigitChars 10 cs 0 := by
  have hfold (n : ℕ) :
      cs.foldl (fun n c => n * 10 + digitValue c) n = Nat.ofDigitChars 10 cs n := by
    induction cs generalizing n with
    | nil => rfl
    | cons c cs ih =>
      obtain ⟨hc, hcs⟩ := List.forall_mem_cons.1 hcs
      have hvalue : digitValue c = c.toNat - '0'.toNat := by
        simp only [digitValue, hc, if_true]
        rfl
      rw [List.foldl_cons, ih hcs, Nat.ofDigitChars_cons, hvalue, Nat.mul_comm]
  exact hfold 0

structure Decimal.Denotes (d : Decimal) (x : ℚ) : Prop where
  digits : ∀ c ∈ d.digits, isDigit c = true
  ne_nil : d.digits ≠ []
  value : (ofDigits 10 d.digits * 10 ^ (d.exponent + 1 - d.digits.length) : ℚ) = x

theorem dropTrailingZeros_append (cs : List Char) :
    ∃ n, cs = dropTrailingZeros cs ++ zeros n := by
  refine ⟨(cs.reverse.takeWhile (· == '0')).length, ?_⟩
  have hzeros : cs.reverse.takeWhile (· == '0') =
      zeros (cs.reverse.takeWhile (· == '0')).length := by
    rw [zeros, List.eq_replicate_iff]
    refine ⟨rfl, fun c hc => ?_⟩
    simpa using List.all_eq_true.1 List.all_takeWhile c hc
  have hsplit := congrArg List.reverse
    (List.takeWhile_append_dropWhile (p := (· == '0')) (l := cs.reverse))
  rw [List.reverse_append, List.reverse_reverse, hzeros, zeros, List.reverse_replicate] at hsplit
  exact hsplit.symm

theorem ofDigitChars_zeros (cs : List Char) (n : ℕ) :
    Nat.ofDigitChars 10 (cs ++ zeros n) 0 = Nat.ofDigitChars 10 cs 0 * 10 ^ n := by
  rw [Nat.ofDigitChars_append, zeros, Nat.ofDigitChars_replicate_zero, Nat.mul_comm]

theorem isDigit_toDigits (n : ℕ) : ∀ c ∈ Nat.toDigits 10 n, isDigit c = true :=
  fun _ hc => isDigit_of_char (Nat.isDigit_of_mem_toDigits (by norm_num) (by norm_num) hc)

theorem denotes_dropTrailingZeros {c : ℕ} (hc : 0 < c) (k : ℤ) :
    (⟨dropTrailingZeros (Nat.toDigits 10 c), k + (Nat.toDigits 10 c).length - 1⟩ :
      Decimal).Denotes (c * 10 ^ k) := by
  obtain ⟨n, hzeros⟩ := dropTrailingZeros_append (Nat.toDigits 10 c)
  have hdigits : ∀ d ∈ dropTrailingZeros (Nat.toDigits 10 c), isDigit d = true := by
    intro d hmem
    refine isDigit_toDigits c d ?_
    rw [hzeros]
    exact List.mem_append_left _ hmem
  have hvalue : Nat.ofDigitChars 10 (dropTrailingZeros (Nat.toDigits 10 c)) 0 * 10 ^ n = c := by
    rw [← ofDigitChars_zeros, ← hzeros, Nat.ofDigitChars_ten_toDigits]
  have hlen : ((Nat.toDigits 10 c).length : ℤ) =
      (dropTrailingZeros (Nat.toDigits 10 c)).length + n := by
    have := congrArg List.length hzeros
    simp only [List.length_append, zeros, List.length_replicate] at this
    omega
  refine ⟨hdigits, ?_, ?_⟩
  · intro hnil
    have hnil' : dropTrailingZeros (Nat.toDigits 10 c) = [] := hnil
    rw [hnil'] at hvalue
    exact hc.ne (by simpa using hvalue)
  · simp only [ofDigits_eq hdigits, hlen]
    generalize Nat.ofDigitChars 10 (dropTrailingZeros (Nat.toDigits 10 c)) 0 = v at hvalue
    generalize (dropTrailingZeros (Nat.toDigits 10 c)).length = l
    rw [← hvalue, show k + ((l : ℤ) + n) - 1 + 1 - l = n + k by ring, zpow_add₀ (by norm_num),
      zpow_natCast]
    push_cast
    ring

theorem shortest_denotes {m : ℕ} {e : ℤ} (hd : IsDouble m e) (tie : Tie) :
    ∃ x, RoundsTo x m e ∧ (shortest tie m e).Denotes x := by
  obtain ⟨c, k, hround, hshort⟩ := shortest_spec hd tie
  rw [hshort]
  exact ⟨c * 10 ^ k, hround, denotes_dropTrailingZeros (hround.factor_pos hd) k⟩

/-! ## Numerals -/

/-- What ends a numeral: no digit, no point, and no exponent. -/
def EndsNumeral (rest : List Char) : Prop :=
  ∀ c ∈ rest.head?, isDigit c = false ∧ c ≠ '.' ∧ c ≠ 'e' ∧ c ≠ 'E'

theorem EndsNumeral.digit {rest : List Char} (h : EndsNumeral rest) :
    ∀ c ∈ rest.head?, isDigit c = false := fun c hc => (h c hc).1

theorem spanExponent_none {rest : List Char} (h : EndsNumeral rest) : spanExponent rest = none := by
  cases rest with
  | nil => rfl
  | cons c rest =>
    obtain ⟨-, -, he, hE⟩ := h c rfl
    simp [spanExponent, he, hE]

theorem spanExponent_some {ds rest : List Char} (hds : ∀ c ∈ ds, isDigit c = true) (hne : ds ≠ [])
    (h : EndsNumeral rest) (negative : Bool) :
    spanExponent ('e' :: (if negative then '-' else '+') :: (ds ++ rest)) =
      some (negative, ds, rest) := by
  have htake : (ds ++ rest).takeWhile isDigit = ds := takeWhile_append_stop hds h.digit
  have hdrop : (ds ++ rest).dropWhile isDigit = rest := dropWhile_append_stop hds h.digit
  cases negative <;> simp [spanExponent, htake, hdrop, hne]

def withExponent (whole fraction tail : List Char) : Option (Numeral × List Char) :=
  match spanExponent tail with
  | some (negative, exponent, rest) => some (⟨whole, fraction, negative, exponent⟩, rest)
  | none => some (⟨whole, fraction, false, []⟩, tail)

theorem spanNumeral_whole {whole tail : List Char} (hwhole : ∀ c ∈ whole, isDigit c = true)
    (hne : whole ≠ []) (htail : ∀ c ∈ tail.head?, isDigit c = false ∧ c ≠ '.') :
    spanNumeral (whole ++ tail) = withExponent whole [] tail := by
  have hdigit : ∀ c ∈ tail.head?, isDigit c = false := fun c hc => (htail c hc).1
  have htake : (whole ++ tail).takeWhile isDigit = whole := takeWhile_append_stop hwhole hdigit
  have hdrop : (whole ++ tail).dropWhile isDigit = tail := dropWhile_append_stop hwhole hdigit
  simp only [spanNumeral, htake, hdrop, List.isEmpty_iff, hne, false_and, if_false]
  cases tail with
  | nil => rfl
  | cons c tail =>
    have hc : c ≠ '.' := (htail c rfl).2
    simp only [↓Char.isValue, List.cons.injEq, hc, false_and, imp_self, implies_true,
      Option.getD_none]
    rfl

theorem spanNumeral_point {whole fraction tail : List Char}
    (hwhole : ∀ c ∈ whole, isDigit c = true) (hne : whole ≠ [])
    (hfraction : ∀ c ∈ fraction, isDigit c = true)
    (htail : ∀ c ∈ tail.head?, isDigit c = false) :
    spanNumeral (whole ++ '.' :: (fraction ++ tail)) = withExponent whole fraction tail := by
  have htake : (whole ++ '.' :: (fraction ++ tail)).takeWhile isDigit = whole :=
    takeWhile_append_stop hwhole (by simp; decide)
  have hdrop : (whole ++ '.' :: (fraction ++ tail)).dropWhile isDigit = '.' :: (fraction ++ tail) :=
    dropWhile_append_stop hwhole (by simp; decide)
  have htake' : (fraction ++ tail).takeWhile isDigit = fraction :=
    takeWhile_append_stop hfraction htail
  have hdrop' : (fraction ++ tail).dropWhile isDigit = tail := dropWhile_append_stop hfraction htail
  simp only [spanNumeral, htake, hdrop, htake', hdrop', List.isEmpty_iff, hne, false_and,
    if_false, Option.getD_some]
  rfl

def Numeral.exact (n : Numeral) : ℚ :=
  ofDigits 10 (n.whole ++ n.fraction) *
    10 ^ ((if n.negativeExponent then -(ofDigits 10 n.exponent : ℤ) else ofDigits 10 n.exponent) -
      n.fraction.length)

theorem Numeral.value_eq (n : Numeral) {m : ℕ} {e : ℤ} (hd : IsDouble m e)
    (h : RoundsTo n.exact m e) : n.value = ofMagnitude false (magnitudeBits m e) :=
  ofScaled_of_roundsTo hd h

structure IsNumeralText (cs : List Char) (x : ℚ) : Prop where
  reads : ∃ n : Numeral, n.exact = x ∧
    ∀ rest, EndsNumeral rest → spanNumeral (cs ++ rest) = some (n, rest)
  head : ∃ c tail, cs = c :: tail ∧ isDigit c = true ∧ ∀ d ∈ tail.head?, d ≠ 'x' ∧ d ≠ 'X'

theorem isDigit_ne_x {c : Char} (h : isDigit c = true) : c ≠ 'x' ∧ c ≠ 'X' := by
  constructor <;> (rintro rfl; simp [isDigit] at h)

theorem isDigit_zeros (n : ℕ) : ∀ c ∈ zeros n, isDigit c = true := by
  intro c hc
  rw [(List.mem_replicate.1 hc).2]
  decide

theorem head_digits {ds : List Char} (hds : ∀ c ∈ ds, isDigit c = true) (hne : ds ≠ [])
    (tail : List Char) (htail : ∀ c ∈ tail.head?, c ≠ 'x' ∧ c ≠ 'X') :
    ∃ c rest, ds ++ tail = c :: rest ∧ isDigit c = true ∧ ∀ d ∈ rest.head?, d ≠ 'x' ∧ d ≠ 'X' := by
  obtain ⟨c, ds, rfl⟩ := List.exists_cons_of_ne_nil hne
  obtain ⟨hc, hds⟩ := List.forall_mem_cons.1 hds
  refine ⟨c, ds ++ tail, rfl, hc, ?_⟩
  cases ds with
  | nil => exact htail
  | cons d ds =>
    intro d' hd'
    obtain rfl : d = d' := Option.some.inj hd'
    exact isDigit_ne_x (hds d List.mem_cons_self)

theorem plain_whole {f : Layout} (hf : f.wholeEnd = []) {d : Decimal} {x : ℚ} (hd : d.Denotes x)
    (hpoint : d.digits.length ≤ d.exponent + 1) : IsNumeralText (f.plain d) x := by
  have htext : f.plain d = d.digits ++ zeros (d.exponent + 1 - d.digits.length).toNat := by
    simp [Layout.plain, hpoint, hf]
  have hdigits : ∀ c ∈ f.plain d, isDigit c = true := by
    intro c hc
    rw [htext] at hc
    rcases List.mem_append.1 hc with hc | hc
    · exact hd.digits c hc
    · exact isDigit_zeros _ c hc
  have hne : f.plain d ≠ [] := by
    rw [htext]
    simp [hd.ne_nil]
  refine ⟨⟨⟨f.plain d, [], false, []⟩, ?_, fun rest hrest => ?_⟩, ?_⟩
  · rw [← hd.value, Numeral.exact]
    have hvalue : ofDigits 10 (f.plain d) =
        ofDigits 10 d.digits * 10 ^ (d.exponent + 1 - d.digits.length).toNat := by
      rw [ofDigits_eq hdigits, ofDigits_eq hd.digits, htext, ofDigitChars_zeros]
    have hexp : (10 : ℚ) ^ (d.exponent + 1 - d.digits.length) =
        10 ^ (d.exponent + 1 - d.digits.length).toNat := by
      rw [← zpow_natCast]
      congr 1
      omega
    have hzero : ofDigits 10 [] = 0 := rfl
    rw [List.append_nil, hvalue, hexp, hzero]
    push_cast
    simp
  · rw [spanNumeral_whole hdigits hne (fun c hc => ⟨(hrest c hc).1, (hrest c hc).2.1⟩),
      withExponent, spanExponent_none hrest]
  · have := head_digits hdigits hne [] (by simp)
    simpa using this

theorem pointed_text {whole : List Char} (hwhole : ∀ c ∈ whole, isDigit c = true)
    (hne : whole ≠ []) {fraction : List Char} (hfraction : ∀ c ∈ fraction, isDigit c = true) :
    IsNumeralText (whole ++ '.' :: fraction)
      (ofDigits 10 (whole ++ fraction) * 10 ^ (-(fraction.length : ℤ))) := by
  refine ⟨⟨⟨whole, fraction, false, []⟩, ?_, fun rest hrest => ?_⟩,
    head_digits hwhole hne _ (by simp)⟩
  · have hzero : ofDigits 10 [] = 0 := rfl
    simp [Numeral.exact, hzero]
  · rw [List.append_assoc, List.cons_append,
      spanNumeral_point hwhole hne hfraction hrest.digit, withExponent, spanExponent_none hrest]

theorem plain_point {f : Layout} {d : Decimal} {x : ℚ} (hd : d.Denotes x)
    (hpoint : d.exponent + 1 < d.digits.length) : IsNumeralText (f.plain d) x := by
  by_cases hpos : 0 < d.exponent + 1
  · -- The point stands among the digits.
    have htext : f.plain d = d.digits.take (d.exponent + 1).toNat ++
        '.' :: d.digits.drop (d.exponent + 1).toNat := by
      simp [Layout.plain, hpoint.not_ge, hpos]
    have htake : ∀ c ∈ d.digits.take (d.exponent + 1).toNat, isDigit c = true :=
      fun c hc => hd.digits c (List.mem_of_mem_take hc)
    have hdrop : ∀ c ∈ d.digits.drop (d.exponent + 1).toNat, isDigit c = true :=
      fun c hc => hd.digits c (List.mem_of_mem_drop hc)
    have hne : d.digits.take (d.exponent + 1).toNat ≠ [] := by
      simp [hd.ne_nil]
      omega
    have hlen : -((d.digits.drop (d.exponent + 1).toNat).length : ℤ) =
        d.exponent + 1 - d.digits.length := by
      rw [List.length_drop]
      omega
    have := pointed_text htake hne hdrop
    rwa [List.take_append_drop, hlen, hd.value, ← htext] at this
  · -- The point stands in front of all digits, with zeros between.
    have htext : f.plain d = ['0'] ++ '.' :: (zeros (-(d.exponent + 1)).toNat ++ d.digits) := by
      simp [Layout.plain, hpoint.not_ge, hpos]
    have hdigits : ∀ c ∈ zeros (-(d.exponent + 1)).toNat ++ d.digits, isDigit c = true := by
      intro c hc
      rcases List.mem_append.1 hc with hc | hc
      · exact isDigit_zeros _ c hc
      · exact hd.digits c hc
    have hlen : -((zeros (-(d.exponent + 1)).toNat ++ d.digits).length : ℤ) =
        d.exponent + 1 - d.digits.length := by
      simp only [List.length_append, zeros, List.length_replicate]
      omega
    have hvalue : ofDigits 10 (['0'] ++ (zeros (-(d.exponent + 1)).toNat ++ d.digits)) =
        ofDigits 10 d.digits := by
      have hall : ∀ c ∈ ['0'] ++ (zeros (-(d.exponent + 1)).toNat ++ d.digits),
          isDigit c = true := by
        intro c hc
        rcases List.mem_append.1 hc with hc | hc
        · rw [List.mem_singleton.1 hc]
          decide
        · exact hdigits c hc
      rw [ofDigits_eq hall, ofDigits_eq hd.digits, Nat.ofDigitChars_append,
        Nat.ofDigitChars_append, zeros, Nat.ofDigitChars_replicate_zero]
      simp [Nat.ofDigitChars_cons]
    have hzero : ∀ c ∈ ['0'], isDigit c = true := forall_of_all (by decide)
    have := pointed_text hzero (by simp) hdigits
    rwa [hvalue, hlen, hd.value, ← htext] at this

theorem exponent_text (e : ℤ) {rest : List Char} (hrest : EndsNumeral rest) :
    spanExponent ('e' :: (if e < 0 then '-' else '+') :: (Nat.toDigits 10 e.natAbs ++ rest)) =
      some (decide (e < 0), Nat.toDigits 10 e.natAbs, rest) := by
  have := spanExponent_some (isDigit_toDigits e.natAbs) Nat.toDigits_ne_nil hrest (decide (e < 0))
  simpa using this

theorem exponent_value (e : ℤ) :
    (if decide (e < 0) = true then -(ofDigits 10 (Nat.toDigits 10 e.natAbs) : ℤ)
      else ofDigits 10 (Nat.toDigits 10 e.natAbs)) = e := by
  rw [ofDigits_eq (isDigit_toDigits e.natAbs), Nat.ofDigitChars_ten_toDigits]
  by_cases he : e < 0
  · simp only [he, decide_true, if_true]
    omega
  · simp only [he, decide_false, Bool.false_eq_true, if_false]
    omega

theorem scientific_text {d : Decimal} {x : ℚ} (hd : d.Denotes x) :
    IsNumeralText (scientific d) x := by
  have hletter : ∀ c ∈ ('e' :: (if d.exponent < 0 then '-' else '+') ::
      Nat.toDigits 10 d.exponent.natAbs).head?, c ≠ 'x' ∧ c ≠ 'X' := by simp
  obtain ⟨digits, exponent⟩ := d
  obtain ⟨first, more, rfl⟩ := List.exists_cons_of_ne_nil hd.ne_nil
  obtain ⟨hfirst, hmore⟩ := List.forall_mem_cons.1 hd.digits
  have hwhole : ∀ c ∈ [first], isDigit c = true := by simpa using hfirst
  have hvalue := hd.value
  simp only at hvalue hletter
  cases more with
  | nil =>
    refine ⟨⟨⟨[first], [], decide (exponent < 0), Nat.toDigits 10 exponent.natAbs⟩, ?_,
      fun rest hrest => ?_⟩, head_digits hwhole (by simp) _ hletter⟩
    · rw [Numeral.exact, exponent_value, ← hvalue]
      simp
    · have htext : scientific ⟨[first], exponent⟩ ++ rest = [first] ++ 'e' ::
          (if exponent < 0 then '-' else '+') :: (Nat.toDigits 10 exponent.natAbs ++ rest) := by
        simp [scientific]
      rw [htext, spanNumeral_whole hwhole (by simp) (by simp; decide), withExponent,
        exponent_text exponent hrest]
  | cons second more =>
    refine ⟨⟨⟨[first], second :: more, decide (exponent < 0),
      Nat.toDigits 10 exponent.natAbs⟩, ?_, fun rest hrest => ?_⟩,
      head_digits hwhole (by simp) ('.' :: _) (by simp)⟩
    · rw [Numeral.exact, exponent_value, ← hvalue]
      simp only [List.singleton_append, List.length_cons]
      congr 2
      push_cast
      ring
    · have htext : scientific ⟨first :: second :: more, exponent⟩ ++ rest =
          [first] ++ '.' :: ((second :: more) ++ 'e' ::
          (if exponent < 0 then '-' else '+') :: (Nat.toDigits 10 exponent.natAbs ++ rest)) := by
        simp [scientific]
      rw [htext, spanNumeral_point hwhole (by simp) hmore (by simp; decide), withExponent,
        exponent_text exponent hrest]

theorem decimal_text {f : Layout} (hf : f.wholeEnd = []) {d : Decimal} {x : ℚ} (hd : d.Denotes x) :
    IsNumeralText (f.decimal d) x := by
  unfold Layout.decimal
  split
  · by_cases hpoint : d.digits.length ≤ d.exponent + 1
    · exact plain_whole hf hd hpoint
    · exact plain_point hd (by omega)
  · exact scientific_text hd

/-! ## Whole texts -/

/-- The text is read as a number, whatever ends it. -/
structure WritesNumber (cs : List Char) (x : Float) : Prop where
  reads : ∃ n : Numeral, n.value = x ∧
    ∀ rest, EndsNumeral rest → spanNumeral (cs ++ rest) = some (n, rest)
  head : ∃ c tail, cs = c :: tail ∧ isDigit c = true ∧ ∀ d ∈ tail.head?, d ≠ 'x' ∧ d ≠ 'X'

theorem writesNumber_zero : WritesNumber ['0'] (ofMagnitude false 0) := by
  refine ⟨⟨⟨['0'], [], false, []⟩, ?_, fun rest hrest => ?_⟩, '0', [], rfl, by decide, by simp⟩
  · have hzero : ofDigits 10 ['0'] = 0 := by decide
    simp [Numeral.value, hzero, ofScaled]
  · have hdigit : ∀ c ∈ ['0'], isDigit c = true := forall_of_all (by decide)
    rw [spanNumeral_whole hdigit (by simp) (fun c hc => ⟨(hrest c hc).1, (hrest c hc).2.1⟩),
      withExponent, spanExponent_none hrest]

theorem write_finite {f : Layout} (hend : f.wholeEnd = []) (hsigned : f.signedZero = false)
    {x : Float} {negative : Bool} {m : ℕ} {e : ℤ} (h : decode x = .finite negative m e) :
    ∃ cs, (f.write x).toList = signed (negative && m != 0) cs ∧ WritesNumber cs x.abs := by
  obtain ⟨hbits, hdouble, hzero⟩ := decode_finite h
  rw [abs_eq, ← hbits]
  by_cases hm : m = 0
  · obtain rfl := hm
    obtain rfl := hzero rfl
    exact ⟨['0'], by simp [Layout.write, h, hend, hsigned], writesNumber_zero⟩
  · have hd := hdouble (by omega)
    obtain ⟨y, hround, hdenotes⟩ := shortest_denotes hd f.tie
    obtain ⟨⟨n, hexact, hspan⟩, hhead⟩ := decimal_text hend hdenotes
    have hm' : (m != 0) = true := by simpa using hm
    refine ⟨f.decimal (shortest f.tie m e), by simp [Layout.write, h, hm, hm'],
      ⟨n, ?_, hspan⟩, hhead⟩
    exact n.value_eq hd (hexact ▸ hround)

end VueToSan.Number
