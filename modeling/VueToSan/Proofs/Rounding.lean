import Mathlib.Algebra.Order.Field.Power
import Mathlib.Algebra.Order.Field.Rat
import Mathlib.Tactic.FieldSimp
import Mathlib.Tactic.Linarith
import Mathlib.Tactic.Positivity
import Mathlib.Tactic.Ring
import VueToSan.Number.Shortest

/-!
# Rounding to the nearest double

The numbers that round to a double form an interval around it, which holds its ends exactly when the
significand is even. Every quotient in the interval has the bits of the double as its nearest bits.
-/

namespace VueToSan.Number

structure IsDouble (m : ℕ) (e : ℤ) : Prop where
  pos : 0 < m
  lt : m < 2 ^ 53
  least : -1074 ≤ e
  greatest : e ≤ 971
  subnormal : m < 2 ^ 52 → e = -1074

/-- The number `x` is not further from `n` than a half, and nearer if `n` is odd. -/
def IsNear (x : ℚ) (n : ℕ) : Prop :=
  if n % 2 = 0 then n - 1 / 2 ≤ x ∧ x ≤ n + 1 / 2 else n - 1 / 2 < x ∧ x < n + 1 / 2

def RoundsTo (x : ℚ) (m : ℕ) (e : ℤ) : Prop :=
  if m % 2 = 0 then
    (Interval.ofParts m e).low * (2 : ℚ) ^ (e - 2) ≤ x ∧
      x ≤ (Interval.ofParts m e).high * (2 : ℚ) ^ (e - 2)
  else
    (Interval.ofParts m e).low * (2 : ℚ) ^ (e - 2) < x ∧
      x < (Interval.ofParts m e).high * (2 : ℚ) ^ (e - 2)

theorem two_zpow_pos (e : ℤ) : (0 : ℚ) < 2 ^ e := zpow_pos (by norm_num) e

theorem two_zpow_mono {a b : ℤ} (h : a ≤ b) : (2 : ℚ) ^ a ≤ 2 ^ b :=
  zpow_le_zpow_right₀ (by norm_num) h

theorem two_zpow_add_nat (e : ℤ) (k : ℕ) : (2 : ℚ) ^ (e + k) = 2 ^ k * 2 ^ e := by
  rw [zpow_add₀ two_ne_zero, zpow_natCast, mul_comm]

theorem IsNear.weak {x : ℚ} {n : ℕ} (h : IsNear x n) : n - 1 / 2 ≤ x ∧ x ≤ n + 1 / 2 := by
  unfold IsNear at h
  split at h
  · exact h
  · exact ⟨h.1.le, h.2.le⟩

theorem IsNear.strict {x : ℚ} {n : ℕ} (h : IsNear x n) (hn : n % 2 = 1) :
    n - 1 / 2 < x ∧ x < n + 1 / 2 := by
  unfold IsNear at h
  rwa [if_neg (by omega)] at h

theorem roundHalfEven_eq {num den n : ℕ} (hden : 0 < den) (h : IsNear (num / den) n) :
    roundHalfEven num den = n := by
  have hden' : (0 : ℚ) < den := by exact_mod_cast hden
  have hsplit : (num : ℚ) = den * (num / den : ℕ) + (num % den : ℕ) := by
    exact_mod_cast (Nat.div_add_mod num den).symm
  have hx : (num : ℚ) / den = (num / den : ℕ) + ((num % den : ℕ) : ℚ) / den := by
    rw [hsplit]
    field_simp
  have hr : num % den < den := Nat.mod_lt num hden
  rw [hx] at h
  unfold roundHalfEven
  -- From here on the number is `q + r / den`, and `n` is compared with `q`.
  generalize num / den = q at h ⊢
  generalize num % den = r at h hr ⊢
  have hr0 : (0 : ℚ) ≤ (r : ℚ) / den := by positivity
  have hr1 : (r : ℚ) / den < 1 := by
    rw [div_lt_one hden']
    exact_mod_cast hr
  obtain ⟨hlow, hhigh⟩ := h.weak
  by_cases hless : 2 * r < den
  · have hhalf : (r : ℚ) / den < 1 / 2 := by
      rw [div_lt_iff₀ hden']
      have : (2 * r : ℚ) < den := by exact_mod_cast hless
      linarith
    have hn : (n : ℚ) < q + 1 := by linarith
    have hq : (q : ℚ) < n + 1 := by linarith
    have hn' : n < q + 1 := by exact_mod_cast hn
    have hq' : q < n + 1 := by exact_mod_cast hq
    simp only [hless, if_true]
    omega
  · by_cases hmore : den < 2 * r
    · have hhalf : 1 / 2 < (r : ℚ) / den := by
        rw [lt_div_iff₀ hden']
        have : (den : ℚ) < 2 * r := by exact_mod_cast hmore
        linarith
      have hn : (n : ℚ) < q + 2 := by linarith
      have hq : (q : ℚ) < n := by linarith
      have hn' : n < q + 2 := by exact_mod_cast hn
      have hq' : q < n := by exact_mod_cast hq
      simp only [hless, hmore, if_false, if_true]
      omega
    · -- A tie: `n` is one of the two neighbours, and odd it would have to be nearer.
      have hhalf : (r : ℚ) / den = 1 / 2 := by
        have : den = 2 * r := by omega
        rw [div_eq_iff hden'.ne', this]
        push_cast
        ring
      rw [hhalf] at hlow hhigh h
      have hn : (n : ℚ) ≤ q + 1 := by linarith
      have hq : (q : ℚ) ≤ n := by linarith
      have hn' : n ≤ q + 1 := by exact_mod_cast hn
      have hq' : q ≤ n := by exact_mod_cast hq
      have heven : n % 2 = 0 := by
        by_contra hodd
        obtain ⟨hlow', hhigh'⟩ := h.strict (by omega)
        have h1 : (n : ℚ) < q + 1 := by linarith
        have h2 : (q : ℚ) < n := by linarith
        have h1' : n < q + 1 := by exact_mod_cast h1
        have h2' : q < n := by exact_mod_cast h2
        omega
      simp only [hless, hmore, if_false]
      omega

/-! ## The exponent of a quotient -/

theorem zpow_eq_div {b : ℚ} (hb : b ≠ 0) (e : ℤ) : b ^ e = b ^ e.toNat / b ^ (-e).toNat := by
  rw [← zpow_natCast, ← zpow_natCast, ← zpow_sub₀ hb]
  congr 1
  omega

theorem scaled_eq {num den : ℕ} (hden : 0 < den) (e : ℤ) :
    ((num * 2 ^ (-e).toNat : ℕ) : ℚ) / (den * 2 ^ e.toNat : ℕ) = num / den / 2 ^ e := by
  have hden' : (0 : ℚ) < den := by exact_mod_cast hden
  rw [zpow_eq_div two_ne_zero e]
  push_cast
  field_simp

theorem log2_bracket {num den : ℕ} (hnum : 0 < num) (hden : 0 < den) :
    (2 : ℚ) ^ ((num.log2 : ℤ) - den.log2 - 1) < num / den ∧
      (num / den : ℚ) < 2 ^ ((num.log2 : ℤ) - den.log2 + 1) := by
  have hden' : (0 : ℚ) < den := by exact_mod_cast hden
  have hnum1 : (2 : ℚ) ^ (num.log2 : ℤ) ≤ num := by
    exact_mod_cast Nat.log2_self_le hnum.ne'
  have hnum2 : (num : ℚ) < 2 ^ ((num.log2 : ℤ) + 1) := by
    exact_mod_cast (Nat.lt_log2_self (n := num))
  have hden1 : (2 : ℚ) ^ (den.log2 : ℤ) ≤ den := by
    exact_mod_cast Nat.log2_self_le hden.ne'
  have hden2 : (den : ℚ) < 2 ^ ((den.log2 : ℤ) + 1) := by
    exact_mod_cast (Nat.lt_log2_self (n := den))
  constructor
  · rw [lt_div_iff₀ hden']
    calc (2 : ℚ) ^ ((num.log2 : ℤ) - den.log2 - 1) * den
        < 2 ^ ((num.log2 : ℤ) - den.log2 - 1) * 2 ^ ((den.log2 : ℤ) + 1) :=
          mul_lt_mul_of_pos_left hden2 (two_zpow_pos _)
      _ = 2 ^ (num.log2 : ℤ) := by
          rw [← zpow_add₀ two_ne_zero]
          congr 1
          ring
      _ ≤ num := hnum1
  · rw [div_lt_iff₀ hden']
    calc (num : ℚ) < 2 ^ ((num.log2 : ℤ) + 1) := hnum2
      _ = 2 ^ ((num.log2 : ℤ) - den.log2 + 1) * 2 ^ (den.log2 : ℤ) := by
          rw [← zpow_add₀ two_ne_zero]
          congr 1
          ring
      _ ≤ 2 ^ ((num.log2 : ℤ) - den.log2 + 1) * den :=
          mul_le_mul_of_nonneg_left hden1 (two_zpow_pos _).le

theorem exponentFor_test (num : ℕ) {den : ℕ} (hden : 0 < den) (e : ℤ) :
    num * 2 ^ (-e).toNat < den * 2 ^ 52 * 2 ^ e.toNat ↔ (num / den : ℚ) < 2 ^ (e + 52) := by
  have hden' : (0 : ℚ) < (den * 2 ^ e.toNat : ℕ) := by
    have : 0 < den * 2 ^ e.toNat := by positivity
    exact_mod_cast this
  have hpow : (2 : ℚ) ^ (e + 52) = 2 ^ 52 * 2 ^ e := two_zpow_add_nat e 52
  rw [hpow, ← div_lt_iff₀ (two_zpow_pos e), ← scaled_eq hden e, div_lt_iff₀ hden']
  rw [show den * 2 ^ 52 * 2 ^ e.toNat = 2 ^ 52 * (den * 2 ^ e.toNat) by ring]
  exact_mod_cast Iff.rfl

/-- The exponent puts 53 bits in front of the point, unless it is the least one. -/
theorem exponentFor_spec {num den : ℕ} (hnum : 0 < num) (hden : 0 < den) :
    -1074 ≤ exponentFor num den ∧ (num / den : ℚ) < 2 ^ (exponentFor num den + 53) ∧
      (-1074 < exponentFor num den → (2 : ℚ) ^ (exponentFor num den + 52) ≤ num / den) := by
  obtain ⟨hlow, hhigh⟩ := log2_bracket hnum hden
  have htest := exponentFor_test num hden ((num.log2 : ℤ) - den.log2 - 52)
  unfold exponentFor
  simp only [Nat.pow_eq]
  split
  · rename_i hless
    rw [htest] at hless
    refine ⟨le_max_right _ _, hless.trans_le (two_zpow_mono (by omega)), fun hgt => ?_⟩
    exact (two_zpow_mono (by omega)).trans hlow.le
  · rename_i hless
    rw [htest, not_lt] at hless
    refine ⟨le_max_right _ _, hhigh.trans_le (two_zpow_mono (by omega)), fun hgt => ?_⟩
    exact (two_zpow_mono (by omega)).trans hless

/-! ## Nearest bits -/

def magnitudeBits (m : ℕ) (e : ℤ) : ℕ := (e + 1074).toNat * 2 ^ 52 + m

theorem nearestBits_eq {num den n : ℕ} (hnum : 0 < num) (hden : 0 < den)
    (hnear : IsNear (num / den / 2 ^ exponentFor num den) n) :
    nearestBits num den = min (magnitudeBits n (exponentFor num den)) infinityBits := by
  have hround : roundHalfEven (num * 2 ^ (-exponentFor num den).toNat)
      (den * 2 ^ (exponentFor num den).toNat) = n := by
    apply roundHalfEven_eq (by positivity)
    rwa [scaled_eq hden]
  unfold nearestBits magnitudeBits
  simp only [Nat.pow_eq, if_neg hnum.ne', hround]

theorem RoundsTo.weak {x : ℚ} {m : ℕ} {e : ℤ} (h : RoundsTo x m e) :
    (Interval.ofParts m e).low * (2 : ℚ) ^ (e - 2) ≤ x ∧
      x ≤ (Interval.ofParts m e).high * (2 : ℚ) ^ (e - 2) := by
  unfold RoundsTo at h
  split at h
  · exact h
  · exact ⟨h.1.le, h.2.le⟩

theorem high_eq (m : ℕ) (e : ℤ) :
    (Interval.ofParts m e).high * (2 : ℚ) ^ (e - 2) = (m + 1 / 2) * 2 ^ e := by
  rw [zpow_sub₀ two_ne_zero]
  simp only [Interval.ofParts]
  push_cast
  ring

def lowGap (m : ℕ) (e : ℤ) : ℕ := if m = 2 ^ 52 ∧ -1074 < e then 1 else 2

theorem low_eq {m : ℕ} (hm : 0 < m) (e : ℤ) :
    (Interval.ofParts m e).low * (2 : ℚ) ^ (e - 2) = (m - lowGap m e / 4) * 2 ^ e := by
  have hgap : lowGap m e ≤ 4 * m := by
    unfold lowGap
    split <;> omega
  have hlow : ((Interval.ofParts m e).low : ℚ) = 4 * m - lowGap m e := by
    have : (Interval.ofParts m e).low = 4 * m - lowGap m e := rfl
    rw [this, Nat.cast_sub hgap]
    push_cast
    ring
  rw [hlow, zpow_sub₀ two_ne_zero]
  ring

theorem lowGap_le (m : ℕ) (e : ℤ) : (lowGap m e : ℚ) ≤ 2 := by
  have : lowGap m e ≤ 2 := by
    unfold lowGap
    split <;> omega
  exact_mod_cast this

theorem RoundsTo.isNear {x : ℚ} {m : ℕ} {e : ℤ} (hm : 0 < m) (h : RoundsTo x m e) :
    IsNear (x / 2 ^ e) m := by
  have hgap := lowGap_le m e
  unfold RoundsTo at h
  unfold IsNear
  rw [low_eq hm, high_eq] at h
  split at h
  · rename_i heven
    rw [if_pos heven]
    constructor
    · refine le_trans ?_ ((le_div_iff₀ (two_zpow_pos e)).2 h.1)
      linarith
    · exact (div_le_iff₀ (two_zpow_pos e)).2 h.2
  · rename_i hodd
    rw [if_neg hodd]
    constructor
    · refine lt_of_le_of_lt ?_ ((lt_div_iff₀ (two_zpow_pos e)).2 h.1)
      linarith
    · exact (div_lt_iff₀ (two_zpow_pos e)).2 h.2

theorem RoundsTo.isNear_below {x : ℚ} {e : ℤ} (h : RoundsTo x (2 ^ 52) e) (he : -1074 < e)
    (hx : x < 2 ^ (e + 52)) : IsNear (x / 2 ^ (e - 1)) (2 ^ 53) := by
  have hlow : ((2 : ℚ) ^ 52 - 1 / 4) * 2 ^ e ≤ x := by
    have h1 := h.weak.1
    rw [low_eq (by norm_num), lowGap, if_pos ⟨rfl, he⟩] at h1
    push_cast at h1
    exact h1
  have hhalf : (2 : ℚ) ^ e = 2 * 2 ^ (e - 1) := by
    rw [zpow_sub₀ two_ne_zero]
    ring
  have htop : (2 : ℚ) ^ (e + 52) = 2 ^ 53 * 2 ^ (e - 1) := by
    rw [zpow_add₀ two_ne_zero, hhalf]
    norm_num
    ring
  have hpos := two_zpow_pos (e - 1)
  rw [hhalf] at hlow
  rw [htop] at hx
  unfold IsNear
  rw [if_pos (by norm_num)]
  push_cast
  constructor
  · rw [le_div_iff₀ hpos]
    linarith
  · rw [div_le_iff₀ hpos]
    linarith

theorem magnitudeBits_lt {m : ℕ} {e : ℤ} (h : IsDouble m e) :
    magnitudeBits m e < infinityBits := by
  have h1 := h.lt
  have h2 := h.least
  have h3 := h.greatest
  have h4 : (e + 1074).toNat ≤ 2045 := by omega
  simp only [magnitudeBits, infinityBits, Nat.pow_eq]
  omega

theorem magnitudeBits_carry {e : ℤ} (he : -1074 < e) :
    magnitudeBits (2 ^ 53) (e - 1) = magnitudeBits (2 ^ 52) e := by
  have : (e + 1074).toNat = (e - 1 + 1074).toNat + 1 := by omega
  unfold magnitudeBits
  rw [this]
  omega

theorem exponentFor_le_of_roundsTo {num den m : ℕ} {e : ℤ} (hd : IsDouble m e) (hnum : 0 < num)
    (hden : 0 < den) (h : RoundsTo (num / den) m e) : exponentFor num den ≤ e := by
  by_contra hgt
  have hleast := hd.least
  have hbelow := (exponentFor_spec hnum hden).2.2 (by omega)
  have hhigh := h.weak.2
  rw [high_eq] at hhigh
  have htop : (m : ℚ) + 1 ≤ 2 ^ 53 := by exact_mod_cast hd.lt
  have hle : (2 : ℚ) ^ 53 * 2 ^ e ≤ (m + 1 / 2) * 2 ^ e := by
    calc (2 : ℚ) ^ 53 * 2 ^ e = 2 ^ (e + (53 : ℕ)) := (two_zpow_add_nat e 53).symm
      _ ≤ 2 ^ (exponentFor num den + 52) := two_zpow_mono (by push_cast; omega)
      _ ≤ num / den := hbelow
      _ ≤ (m + 1 / 2) * 2 ^ e := hhigh
  have := le_of_mul_le_mul_right hle (two_zpow_pos e)
  linarith

theorem eq_of_exponentFor_lt {num den m : ℕ} {e : ℤ} (hd : IsDouble m e) (hnum : 0 < num)
    (hden : 0 < den) (h : RoundsTo (num / den) m e) (hlt : exponentFor num den < e) :
    m = 2 ^ 52 ∧ exponentFor num den = e - 1 := by
  obtain ⟨hleast, habove, -⟩ := exponentFor_spec hnum hden
  have hgap := lowGap_le m e
  have hlow := h.weak.1
  rw [low_eq hd.pos] at hlow
  have hbound (k : ℕ) (hk : exponentFor num den + 53 ≤ e + k) : (m : ℚ) - 1 / 2 < 2 ^ k := by
    have hless : ((m : ℚ) - lowGap m e / 4) * 2 ^ e < 2 ^ k * 2 ^ e := by
      calc ((m : ℚ) - lowGap m e / 4) * 2 ^ e ≤ num / den := hlow
        _ < 2 ^ (exponentFor num den + 53) := habove
        _ ≤ 2 ^ (e + (k : ℤ)) := two_zpow_mono hk
        _ = 2 ^ k * 2 ^ e := two_zpow_add_nat e k
    have := lt_of_mul_lt_mul_right hless (two_zpow_pos e).le
    linarith
  have hge : 2 ^ 52 ≤ m := by
    by_contra hsub
    have := hd.subnormal (by omega)
    omega
  have hm : m = 2 ^ 52 := by
    have hlt : (m : ℚ) < 2 ^ 52 + 1 := by
      have := hbound 52 (by push_cast; omega)
      linarith
    have hlt' : m < 2 ^ 52 + 1 := by exact_mod_cast hlt
    omega
  refine ⟨hm, ?_⟩
  by_contra hne
  have := hbound 51 (by push_cast; omega)
  rw [hm] at this
  norm_num at this

theorem nearestBits_of_roundsTo {num den m : ℕ} {e : ℤ} (hd : IsDouble m e) (hnum : 0 < num)
    (hden : 0 < den) (h : RoundsTo (num / den) m e) : nearestBits num den = magnitudeBits m e := by
  have hinf := magnitudeBits_lt hd
  rcases (exponentFor_le_of_roundsTo hd hnum hden h).eq_or_lt with heq | hlt
  · have hnear := h.isNear hd.pos
    rw [← heq] at hnear
    rw [nearestBits_eq hnum hden hnear, heq, min_eq_left hinf.le]
  · obtain ⟨rfl, hE⟩ := eq_of_exponentFor_lt hd hnum hden h hlt
    obtain ⟨hleast, habove, -⟩ := exponentFor_spec hnum hden
    have hnear := h.isNear_below (by omega) (habove.trans_le (two_zpow_mono (by omega)))
    rw [← hE] at hnear
    rw [nearestBits_eq hnum hden hnear, hE, magnitudeBits_carry (by omega), min_eq_left hinf.le]

end VueToSan.Number
