import VueToSan.Proofs.NumberText

/-!
# Signs of numbers

A number is determined by its bits: packing its parts gives them back. So a number whose sign bit is
clear is its own absolute value, and any other number is the negation of its absolute value.
-/

namespace VueToSan.Number

open Float.Model Float.Model.UnpackedFloat

/-! ## Packing and unpacking -/

theorem toNat_implicit (mantissa : BitVec 52) :
    (1#1 ++ mantissa).toNat = 2 ^ 52 + mantissa.toNat := by
  rw [BitVec.toNat_append, ← Nat.shiftLeft_add_eq_or_of_lt mantissa.isLt]
  rfl

theorem pack_subnormal (sign : Sign) {m : ℕ} (hm : 0 < m) (hlt : m < 2 ^ 52) :
    UnpackedFloat.pack Format.binary64 (.finite sign m (-1074) hm) =
      packComponents Format.binary64 sign 0#11 (BitVec.ofNat 52 m) := by
  have hlog : m.log2 + 1 ≠ 53 := by
    have := (Nat.log2_lt hm.ne').2 hlt
    omega
  exact if_neg hlog

theorem pack_normal (sign : Sign) {m biased : ℕ} (hm : 0 < m) (hlow : 2 ^ 52 ≤ m)
    (hhigh : m < 2 ^ 53) (hbiased : biased < 2047) :
    UnpackedFloat.pack Format.binary64 (.finite sign m (biased - 1075) hm) =
      packComponents Format.binary64 sign (BitVec.ofNat 11 biased) (BitVec.ofNat 52 m) := by
  have hexponent : ((biased : ℤ) - 1075 + (1023 : ℕ) + (52 : ℕ)).toNat = biased := by omega
  have hbias : Format.binary64.exponentBias = 1023 := rfl
  have hlog : m.log2 + 1 = 53 := by
    have hge := (Nat.le_log2 hm.ne').2 hlow
    have hlt := (Nat.log2_lt hm.ne').2 hhigh
    omega
  unfold UnpackedFloat.pack
  dsimp only
  rw [hbias, hexponent, if_neg (by omega)]
  exact if_pos hlog

theorem pack_ofFields {sign : BitVec 1} {exponent : BitVec 11} {mantissa : BitVec 52}
    (h : exponent = -1#11 → mantissa = 0#52) :
    UnpackedFloat.pack Format.binary64 (ofFields sign exponent mantissa) =
      packComponents Format.binary64 (Sign.ofBitVec sign) exponent mantissa := by
  have hmantissa := mantissa.isLt
  unfold ofFields
  by_cases htop : exponent = -1#11
  · obtain rfl := h htop
    rw [if_pos htop, if_pos rfl, htop]
    rfl
  · rw [if_neg htop]
    by_cases hlow : exponent = 0#11
    · rw [if_pos hlow, hlow]
      by_cases hzero : mantissa = 0#52
      · rw [dif_pos hzero, hzero]
        rfl
      · rw [dif_neg hzero]
        refine (pack_subnormal _ _ hmantissa).trans ?_
        rw [BitVec.ofNat_toNat, BitVec.setWidth_eq]
    · rw [if_neg hlow]
      have hbiased : exponent.toNat < 2047 := by
        have hne : exponent.toNat ≠ 2047 := fun heq => htop (BitVec.eq_of_toNat_eq heq)
        have := exponent.isLt
        omega
      have hvalue := toNat_implicit mantissa
      have hfraction : BitVec.ofNat 52 (1#1 ++ mantissa).toNat = mantissa := by
        apply BitVec.eq_of_toNat_eq
        rw [BitVec.toNat_ofNat, hvalue]
        omega
      refine (pack_normal _ _ (by omega) (by omega) hbiased).trans ?_
      rw [hfraction, BitVec.ofNat_toNat, BitVec.setWidth_eq]

theorem toNat_packComponents (sign : Sign) (exponent : BitVec 11) (mantissa : BitVec 52) :
    (packComponents Format.binary64 sign exponent mantissa).toNat =
      sign.toBitVec.toNat * 2 ^ 63 + exponent.toNat * 2 ^ 52 + mantissa.toNat := by
  rw [packComponents, BitVec.toNat_append, BitVec.toNat_append,
    ← Nat.shiftLeft_add_eq_or_of_lt (BitVec.isLt _),
    ← Nat.shiftLeft_add_eq_or_of_lt (BitVec.isLt _)]
  simp only [Nat.shiftLeft_eq]
  omega

theorem toBitVec_ofBitVec (sign : BitVec 1) : (Sign.ofBitVec sign).toBitVec = sign := by
  revert sign
  decide

theorem toNat_unpackSign (b : BitVec 64) :
    (@unpackSign Format.binary64 b).toNat = b.toNat / 2 ^ 63 := by
  have hbit : (@unpackSign Format.binary64 b).toNat = (b.toNat >>> 63) % 2 ^ 1 := rfl
  rw [hbit, Nat.shiftRight_eq_div_pow]
  omega

theorem packComponents_unpack (b : BitVec 64) :
    packComponents Format.binary64 (Sign.ofBitVec (@unpackSign Format.binary64 b))
      (@unpackExponent Format.binary64 b) (@unpackMantissa Format.binary64 b) = b := by
  have hb : b.toNat < 2 ^ 64 := b.isLt
  apply BitVec.eq_of_toNat_eq
  rw [toNat_packComponents, toBitVec_ofBitVec, toNat_unpackSign]
  simp only [unpackExponent, unpackMantissa, BitVec.toNat_cast, BitVec.extractLsb_toNat,
    Nat.shiftRight_eq_div_pow]
  omega

theorem unpack_packComponents (sign : BitVec 1) (exponent : BitVec 11) (mantissa : BitVec 52) :
    UnpackedFloat.unpack Format.binary64
      (packComponents Format.binary64 (Sign.ofBitVec sign) exponent mantissa) =
        ofFields sign exponent mantissa := by
  have hsign : @unpackSign Format.binary64
      (packComponents Format.binary64 (Sign.ofBitVec sign) exponent mantissa) = sign := by
    apply BitVec.eq_of_toNat_eq
    rw [toNat_unpackSign, toNat_packComponents, toBitVec_ofBitVec]
    omega
  have hexponent : @unpackExponent Format.binary64
      (packComponents Format.binary64 (Sign.ofBitVec sign) exponent mantissa) = exponent :=
    unpackExponent_packComponents
  have hmantissa : @unpackMantissa Format.binary64
      (packComponents Format.binary64 (Sign.ofBitVec sign) exponent mantissa) = mantissa :=
    unpackMantissa_packComponents
  rw [unpack_eq_ofFields, hsign, hexponent, hmantissa]

theorem pack_unpack {b : BitVec 64} (h : Format.binary64.Valid b) :
    UnpackedFloat.pack Format.binary64 (UnpackedFloat.unpack Format.binary64 b) = b := by
  by_cases hnan : @unpackExponent Format.binary64 b = -1#11 ∧
      @unpackMantissa Format.binary64 b ≠ 0#52
  · rw [unpack_eq_ofFields, ofFields, if_pos hnan.1, if_neg hnan.2]
    exact (h.eq_packedNaN hnan.1 hnan.2).symm
  · rw [not_and, not_not] at hnan
    rw [unpack_eq_ofFields, pack_ofFields hnan, packComponents_unpack]

theorem eq_of_toBits_eq {x y : Float} (h : x.toBits = y.toBits) : x = y := by
  obtain ⟨⟨bits, hvalid⟩⟩ := x
  obtain ⟨⟨bits', hvalid'⟩⟩ := y
  obtain rfl : bits = bits' := h
  rfl

theorem ofBits_toBits (x : Float) : Float.ofBits x.toBits = x := by
  obtain ⟨⟨bits, hvalid⟩⟩ := x
  apply eq_of_toBits_eq
  exact congrArg UInt64.ofBitVec (pack_unpack hvalid)

/-! ## The sign -/

theorem abs_of_unsigned {x : Float} (h : x.toBits.toNat < 2 ^ 63) : x.abs = x := by
  have hbits : UInt64.ofNat x.toBits.toNat = x.toBits := by simp
  rw [abs_eq, Nat.mod_eq_of_lt h, ofMagnitude, if_neg (by decide), Nat.add_zero, hbits,
    ofBits_toBits]

theorem neg_ofFields (sign : BitVec 1) (exponent : BitVec 11) (mantissa : BitVec 52) :
    (ofFields sign exponent mantissa).neg = ofFields (~~~sign) exponent mantissa := by
  have hsign : -Sign.ofBitVec sign = Sign.ofBitVec (~~~sign) := by
    rcases sign.eq_zero_or_eq_one with rfl | rfl <;> rfl
  exact apply_ofFields (congrArg UnpackedFloat.infinity hsign) rfl
    (congrArg UnpackedFloat.zero hsign)
    (fun m e hm => congrArg (UnpackedFloat.finite · m e hm) hsign) exponent mantissa

theorem neg_abs_of_signed {x : Float} (h : 2 ^ 63 ≤ x.toBits.toNat) : -x.abs = x := by
  obtain ⟨⟨bits, hvalid⟩⟩ := x
  have hsigned : 2 ^ 63 ≤ bits.toBitVec.toNat := h
  have hsign : @unpackSign Format.binary64 bits.toBitVec = 1#1 := by
    have hbits := bits.toBitVec.isLt
    apply BitVec.eq_of_toNat_eq
    rw [toNat_unpackSign, BitVec.toNat_one (by decide)]
    omega
  have hnumber : @unpackExponent Format.binary64 bits.toBitVec = -1#11 →
      @unpackMantissa Format.binary64 bits.toBitVec = 0#52 := by
    intro htop
    by_contra hne
    have hnan : bits.toBitVec.toNat = (packedNaN Format.binary64).toNat :=
      congrArg BitVec.toNat (hvalid.eq_packedNaN htop hne)
    rw [hnan] at hsigned
    exact absurd hsigned (by decide)
  have hfields := unpack_eq_ofFields bits.toBitVec
  rw [hsign] at hfields
  generalize @unpackExponent Format.binary64 bits.toBitVec = exponent at hfields hnumber
  generalize @unpackMantissa Format.binary64 bits.toBitVec = mantissa at hfields hnumber
  have habs : UnpackedFloat.unpack Format.binary64 (UnpackedFloat.pack Format.binary64
      (UnpackedFloat.unpack Format.binary64 bits.toBitVec).abs) =
        ofFields 0#1 exponent mantissa := by
    rw [hfields, ← ofFields_unsigned, pack_ofFields hnumber, unpack_packComponents]
  have hneg : (ofFields 0#1 exponent mantissa).neg =
      UnpackedFloat.unpack Format.binary64 bits.toBitVec := by
    rw [neg_ofFields, hfields]
    rfl
  apply eq_of_toBits_eq
  change UInt64.ofBitVec (UnpackedFloat.pack Format.binary64 (UnpackedFloat.unpack Format.binary64
    (UnpackedFloat.pack Format.binary64
      (UnpackedFloat.unpack Format.binary64 bits.toBitVec).abs)).neg) = bits
  rw [habs, hneg, pack_unpack hvalid]

/-! ## Numbers by their parts -/

variable {x : Float}

theorem eq_nan_of_decode (h : decode x = .nan) : x = nan := by
  have hparts : x.toBits.toNat / 2 ^ 52 % 2 ^ 11 = 2047 ∧ x.toBits.toNat % 2 ^ 52 ≠ 0 := by
    simp only [decode, Nat.pow_eq] at h
    split_ifs at h with htop hzero
    exact ⟨htop, hzero⟩
  obtain ⟨⟨bits, hvalid⟩⟩ := x
  obtain ⟨hexponent, hmantissa⟩ : bits.toNat / 2 ^ 52 % 2 ^ 11 = 2047 ∧ bits.toNat % 2 ^ 52 ≠ 0 :=
    hparts
  have htop : @unpackExponent Format.binary64 bits.toBitVec = -1#11 := by
    apply BitVec.eq_of_toNat_eq
    have hvalue : (-1#11).toNat = 2047 := rfl
    simp only [unpackExponent, BitVec.toNat_cast, BitVec.extractLsb_toNat, UInt64.toNat_toBitVec,
      Nat.shiftRight_eq_div_pow, hvalue]
    omega
  have hne : @unpackMantissa Format.binary64 bits.toBitVec ≠ 0#52 := by
    intro hzero
    have hvalue := congrArg BitVec.toNat hzero
    simp only [unpackMantissa, BitVec.toNat_cast, BitVec.extractLsb_toNat, UInt64.toNat_toBitVec,
      BitVec.toNat_zero] at hvalue
    omega
  have hnan : bits = nan.toBits := by
    apply UInt64.toBitVec_inj.1
    rw [hvalid.eq_packedNaN htop hne]
    rfl
  exact eq_of_toBits_eq hnan

theorem eq_infinity_of_decode {negative : Bool} (h : decode x = .infinite negative) :
    x = if negative then -infinity else infinity := by
  have hbits : x.toBits.toNat < 2 ^ 64 := x.toBits.toNat_lt
  simp only [decode, Nat.pow_eq] at h
  split_ifs at h with htop hzero
  obtain rfl := Decoded.infinite.inj h
  split_ifs with hsign
  · apply eq_of_toBits_eq
    apply UInt64.toNat_inj.1
    have hvalue : (-infinity).toBits.toNat = 4095 * 2 ^ 52 := rfl
    rw [beq_iff_eq] at hsign
    omega
  · apply eq_of_toBits_eq
    apply UInt64.toNat_inj.1
    have hvalue : infinity.toBits.toNat = 2047 * 2 ^ 52 := rfl
    rw [beq_iff_eq] at hsign
    omega

theorem eq_abs_of_decode {negative : Bool} {m : ℕ} {e : ℤ} (h : decode x = .finite negative m e) :
    x = if negative then -x.abs else x.abs := by
  have hbits : x.toBits.toNat < 2 ^ 64 := x.toBits.toNat_lt
  have hnegative : negative = (x.toBits.toNat / 2 ^ 63 == 1) := by
    simp only [decode, Nat.pow_eq] at h
    split_ifs at h <;> exact (Decoded.finite.inj h).1.symm
  subst hnegative
  split_ifs with hsign
  · rw [beq_iff_eq] at hsign
    exact (neg_abs_of_signed (by omega)).symm
  · rw [beq_iff_eq] at hsign
    exact (abs_of_unsigned (by omega)).symm

end VueToSan.Number
