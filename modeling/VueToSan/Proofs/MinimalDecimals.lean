import Mathlib.Algebra.Order.AbsoluteValue.Basic
import VueToSan.Proofs.NumberText

/-!
# Shortest decimals are shortest

No decimal with fewer digits than the shortest one rounds to the double, and of the decimals with
as many digits none lies nearer to it. The digits begin and end with a digit that is no zero.
-/

namespace VueToSan.Number

open VueToSan.Text

variable {m : ℕ} {e k : ℤ} {tie : Tie}

/-! ## Multiples of a power of ten that round to a double -/

theorem RoundsTo.between {x y z : ℚ} (hx : RoundsTo x m e) (hz : RoundsTo z m e) (hxy : x ≤ y)
    (hyz : y ≤ z) : RoundsTo y m e := by
  unfold RoundsTo at hx hz ⊢
  split at hx
  · rename_i heven
    rw [if_pos heven] at hz ⊢
    exact ⟨hx.1.trans hxy, hyz.trans hz.2⟩
  · rename_i hodd
    rw [if_neg hodd] at hz ⊢
    exact ⟨hx.1.trans_le hxy, hyz.trans_lt hz.2⟩

theorem roundsTo_self (hm : 0 < m) : RoundsTo (m * 2 ^ e) m e :=
  .of_strict hm le_rfl (mul_lt_mul_of_pos_right (by linarith) (two_zpow_pos e))

def gridBelow (m : ℕ) (e k : ℤ) : ℕ :=
  binarySide (Interval.ofParts m e).value k (e - 2) / decimalSide 1 k (e - 2)

theorem gridBelow_le (m : ℕ) (e k : ℤ) : (gridBelow m e k * 10 ^ k : ℚ) ≤ m * 2 ^ e :=
  (grid_bracket m e k).1

theorem lt_gridBelow_succ (m : ℕ) (e k : ℤ) :
    (m * 2 ^ e : ℚ) < (gridBelow m e k + 1 : ℕ) * 10 ^ k :=
  (grid_bracket m e k).2

theorem ten_zpow_pos (k : ℤ) : (0 : ℚ) < 10 ^ k := zpow_pos (by norm_num) k

theorem ten_zpow_eq {a b : ℤ} {n : ℕ} (h : a = n + b) : (10 : ℚ) ^ a = 10 ^ n * 10 ^ b := by
  rw [h, zpow_add₀ (by norm_num), zpow_natCast]

theorem mul_ten_zpow_mono {c d : ℕ} (h : c ≤ d) (k : ℤ) : (c * 10 ^ k : ℚ) ≤ d * 10 ^ k :=
  mul_le_mul_of_nonneg_right (by exact_mod_cast h) (ten_zpow_pos k).le

def gapBelow (m : ℕ) (e k : ℤ) : ℚ := m * 2 ^ e - gridBelow m e k * 10 ^ k

def gapAbove (m : ℕ) (e k : ℤ) : ℚ := (gridBelow m e k + 1 : ℕ) * 10 ^ k - m * 2 ^ e

theorem gapBelow_nonneg (m : ℕ) (e k : ℤ) : 0 ≤ gapBelow m e k :=
  sub_nonneg.2 (gridBelow_le m e k)

theorem gapAbove_pos (m : ℕ) (e k : ℤ) : 0 < gapAbove m e k :=
  sub_pos.2 (lt_gridBelow_succ m e k)

theorem gapBelow_side (m : ℕ) (e k : ℤ) :
    ((binarySide (Interval.ofParts m e).value k (e - 2) -
      gridBelow m e k * decimalSide 1 k (e - 2) : ℕ) : ℚ) =
        gapBelow m e k * sideScale k (e - 2) := by
  have hle : gridBelow m e k * decimalSide 1 k (e - 2) ≤
      binarySide (Interval.ofParts m e).value k (e - 2) := Nat.div_mul_le_self _ _
  rw [Nat.cast_sub hle, ← decimalSide_mul, binarySide_eq, decimalSide_eq, value_eq, gapBelow,
    sub_mul]

theorem gapAbove_side (m : ℕ) (e k : ℤ) :
    (((gridBelow m e k + 1) * decimalSide 1 k (e - 2) -
      binarySide (Interval.ofParts m e).value k (e - 2) : ℕ) : ℚ) =
        gapAbove m e k * sideScale k (e - 2) := by
  have hle : binarySide (Interval.ofParts m e).value k (e - 2) ≤
      (gridBelow m e k + 1) * decimalSide 1 k (e - 2) := by
    rw [Nat.mul_comm]
    exact (Nat.lt_mul_div_succ _ (decimalSide_pos k (e - 2))).le
  rw [Nat.cast_sub hle, ← decimalSide_mul, binarySide_eq, decimalSide_eq, value_eq, gapAbove,
    sub_mul]

/-- If a multiple rounds to the double, so does one of its two neighbours, which is not further from
it. -/
theorem RoundsTo.neighbour (hm : 0 < m) {c : ℕ} (h : RoundsTo (c * 10 ^ k) m e) :
    (RoundsTo (gridBelow m e k * 10 ^ k) m e ∧
        gapBelow m e k ≤ |(c * 10 ^ k : ℚ) - m * 2 ^ e|) ∨
      (RoundsTo ((gridBelow m e k + 1 : ℕ) * 10 ^ k) m e ∧
        gapAbove m e k ≤ |(c * 10 ^ k : ℚ) - m * 2 ^ e|) := by
  have hself := roundsTo_self (e := e) hm
  rcases Nat.lt_or_ge (gridBelow m e k) c with hc | hc
  · have hle := mul_ten_zpow_mono (Nat.succ_le_of_lt hc) k
    refine .inr ⟨hself.between h (lt_gridBelow_succ m e k).le hle, le_trans ?_ (le_abs_self _)⟩
    exact sub_le_sub_right hle _
  · have hle := mul_ten_zpow_mono hc k
    refine .inl ⟨h.between hself hle (gridBelow_le m e k), le_trans ?_ (neg_le_abs _)⟩
    rw [neg_sub]
    exact sub_le_sub_left hle _

/-- What a grid gives: the neighbour that rounds to the double, the nearer one if both do. -/
inductive GridGives (m : ℕ) (e k : ℤ) : Option ℕ → Prop
  | nothing : ¬RoundsTo (gridBelow m e k * 10 ^ k) m e →
      ¬RoundsTo ((gridBelow m e k + 1 : ℕ) * 10 ^ k) m e → GridGives m e k none
  | below : RoundsTo (gridBelow m e k * 10 ^ k) m e →
      (RoundsTo ((gridBelow m e k + 1 : ℕ) * 10 ^ k) m e → gapBelow m e k ≤ gapAbove m e k) →
      GridGives m e k (some (gridBelow m e k))
  | above : RoundsTo ((gridBelow m e k + 1 : ℕ) * 10 ^ k) m e →
      (RoundsTo (gridBelow m e k * 10 ^ k) m e → gapAbove m e k ≤ gapBelow m e k) →
      GridGives m e k (some (gridBelow m e k + 1))

theorem gridGives_onGrid? (tie : Tie) (m : ℕ) (e k : ℤ) :
    GridGives m e k ((Interval.ofParts m e).onGrid? tie k) := by
  have hexp : (Interval.ofParts m e).exponent = e - 2 := rfl
  have hscale := sideScale_pos k (e - 2)
  have hbelow := gapBelow_side m e k
  have habove := gapAbove_side m e k
  have hgrid : binarySide (Interval.ofParts m e).value k (e - 2) / decimalSide 1 k (e - 2) =
      gridBelow m e k := rfl
  simp only [Interval.onGrid?, hexp, hgrid]
  -- The search compares natural numbers, which are the two gaps scaled alike.
  generalize binarySide (Interval.ofParts m e).value k (e - 2) -
    gridBelow m e k * decimalSide 1 k (e - 2) = below at hbelow ⊢
  generalize (gridBelow m e k + 1) * decimalSide 1 k (e - 2) -
    binarySide (Interval.ofParts m e).value k (e - 2) = above at habove ⊢
  have hle : below ≤ above ↔ gapBelow m e k ≤ gapAbove m e k := by
    rw [← @Nat.cast_le ℚ, hbelow, habove, mul_le_mul_iff_left₀ hscale]
  have hge : above ≤ below ↔ gapAbove m e k ≤ gapBelow m e k := by
    rw [← @Nat.cast_le ℚ, hbelow, habove, mul_le_mul_iff_left₀ hscale]
  cases hlow : (Interval.ofParts m e).holds (gridBelow m e k) k with
  | false =>
    have hlow' : ¬RoundsTo (gridBelow m e k * 10 ^ k) m e := by
      rw [← holds_iff, hlow]
      exact Bool.false_ne_true
    cases hhigh : (Interval.ofParts m e).holds (gridBelow m e k + 1) k with
    | false =>
      refine .nothing hlow' ?_
      rw [← holds_iff, hhigh]
      exact Bool.false_ne_true
    | true => exact .above (holds_iff.1 hhigh) fun h => absurd h hlow'
  | true =>
    have hlow' := holds_iff.1 hlow
    cases hhigh : (Interval.ofParts m e).holds (gridBelow m e k + 1) k with
    | false =>
      refine .below hlow' fun h => ?_
      rw [← holds_iff, hhigh] at h
      cases h
    | true =>
      have hhigh' := holds_iff.1 hhigh
      dsimp only
      split
      · exact .below hlow' fun _ => hle.1 (by omega)
      · split
        · exact .above hhigh' fun _ => hge.1 (by omega)
        · cases tie with
          | up => exact .above hhigh' fun _ => hge.1 (by omega)
          | even =>
            rcases Nat.mod_two_eq_zero_or_one (gridBelow m e k) with hparity | hparity
            · rw [hparity]
              exact .below hlow' fun _ => hle.1 (by omega)
            · rw [hparity]
              exact .above hhigh' fun _ => hge.1 (by omega)

theorem not_roundsTo_of_onGrid? (hm : 0 < m) (h : (Interval.ofParts m e).onGrid? tie k = none)
    (c : ℕ) : ¬RoundsTo (c * 10 ^ k) m e := by
  intro hc
  have hgives := gridGives_onGrid? tie m e k
  rw [h] at hgives
  cases hgives with
  | nothing hbelow habove =>
    rcases hc.neighbour hm with ⟨h, -⟩ | ⟨h, -⟩
    · exact hbelow h
    · exact habove h

theorem onGrid?_nearest (hm : 0 < m) {c d : ℕ}
    (h : (Interval.ofParts m e).onGrid? tie k = some c) (hd : RoundsTo (d * 10 ^ k) m e) :
    |(c * 10 ^ k : ℚ) - m * 2 ^ e| ≤ |(d * 10 ^ k : ℚ) - m * 2 ^ e| := by
  have hgives := gridGives_onGrid? tie m e k
  rw [h] at hgives
  cases hgives with
  | below hround hnearer =>
    have hgap : |(gridBelow m e k * 10 ^ k : ℚ) - m * 2 ^ e| = gapBelow m e k := by
      rw [abs_sub_comm]
      exact abs_of_nonneg (gapBelow_nonneg m e k)
    rw [hgap]
    rcases hd.neighbour hm with ⟨-, hfar⟩ | ⟨habove, hfar⟩
    · exact hfar
    · exact (hnearer habove).trans hfar
  | above hround hnearer =>
    have hgap : |((gridBelow m e k + 1 : ℕ) * 10 ^ k : ℚ) - m * 2 ^ e| = gapAbove m e k :=
      abs_of_pos (gapAbove_pos m e k)
    rw [hgap]
    rcases hd.neighbour hm with ⟨hbelow, hfar⟩ | ⟨-, hfar⟩
    · exact (hnearer hbelow).trans hfar
    · exact hfar

/-! ## The place of the first digit -/

theorem lt_magnitude (m : ℕ) (e : ℤ) :
    (m * 2 ^ e : ℚ) < 10 ^ ((Interval.ofParts m e).magnitude + 1) := by
  have hexp : (Interval.ofParts m e).exponent = e - 2 := rfl
  have habove := lt_gridBelow_succ m e (-400)
  have hlength : gridBelow m e (-400) + 1 ≤ 10 ^ (Nat.toDigits 10 (gridBelow m e (-400))).length := by
    rw [Nat.succ_le_iff, ← Nat.length_toDigits_le_iff (by norm_num) Nat.length_toDigits_pos]
  have hmagnitude : (Interval.ofParts m e).magnitude + 1 =
      (Nat.toDigits 10 (gridBelow m e (-400))).length + -400 := by
    rw [Interval.magnitude, hexp, ← gridBelow]
    ring
  calc (m * 2 ^ e : ℚ) < (gridBelow m e (-400) + 1 : ℕ) * 10 ^ (-400 : ℤ) := habove
    _ ≤ (10 ^ (Nat.toDigits 10 (gridBelow m e (-400))).length : ℕ) * 10 ^ (-400 : ℤ) :=
        mul_ten_zpow_mono hlength _
    _ = 10 ^ ((Interval.ofParts m e).magnitude + 1) := by
        rw [hmagnitude, zpow_add₀ (by norm_num), zpow_natCast, Nat.cast_pow]
        norm_num

/-! ## Lengths -/

theorem length_le_of_lt {n c : ℕ} (hn : 0 < n) (h : c < 10 ^ n) : (Nat.toDigits 10 c).length ≤ n :=
  (Nat.length_toDigits_le_iff (by norm_num) hn).2 h

theorem lt_length_of_le {n c : ℕ} (h : 10 ^ n ≤ c) : n < (Nat.toDigits 10 c).length := by
  rcases Nat.eq_zero_or_pos n with rfl | hn
  · exact Nat.length_toDigits_pos
  · rwa [← not_le, Nat.length_toDigits_le_iff (by norm_num) hn, not_lt]

theorem length_dropTrailingZeros_le (cs : List Char) :
    (dropTrailingZeros cs).length ≤ cs.length := by
  obtain ⟨n, hzeros⟩ := dropTrailingZeros_append cs
  have := congrArg List.length hzeros
  rw [List.length_append] at this
  omega

/-! ## The first hit -/

/-- The finer grids are searched in turn up to the first one with a hit. -/
structure FirstHit (tie : Tie) (m : ℕ) (e : ℤ) (j c : ℕ) : Prop where
  none : ∀ l < j,
    (Interval.ofParts m e).onGrid? tie ((Interval.ofParts m e).magnitude - l) = none
  some : (Interval.ofParts m e).onGrid? tie ((Interval.ofParts m e).magnitude - j) = some c

theorem on_finer {c : ℕ} {k l : ℤ} (h : l ≤ k) : ∃ d : ℕ, (d * 10 ^ l : ℚ) = c * 10 ^ k := by
  refine ⟨c * 10 ^ (k - l).toNat, ?_⟩
  rw [ten_zpow_eq (show k = (k - l).toNat + l by omega)]
  push_cast
  ring

theorem FirstHit.roundsTo {j c : ℕ} (h : FirstHit tie m e j c) :
    RoundsTo (c * 10 ^ ((Interval.ofParts m e).magnitude - j)) m e :=
  holds_iff.1 (holds_of_onGrid? h.some)

theorem FirstHit.fine (hm : 0 < m) {j c d : ℕ} (h : FirstHit tie m e j c) (hj : 0 < j)
    (hround : RoundsTo (d * 10 ^ k) m e) : k ≤ (Interval.ofParts m e).magnitude - j := by
  by_contra hk
  obtain ⟨d', hd'⟩ := on_finer (c := d) (k := k)
    (l := (Interval.ofParts m e).magnitude - (j - 1 : ℕ)) (by omega)
  rw [← hd'] at hround
  exact not_roundsTo_of_onGrid? hm (h.none (j - 1) (by omega)) d' hround

theorem FirstHit.first_digit (hd : IsDouble m e) {j c d : ℕ} (h : FirstHit tie m e j c) (hj : 0 < j)
    (hround : RoundsTo (d * 10 ^ k) m e) :
    (10 : ℚ) ^ (Interval.ofParts m e).magnitude ≤ d * 10 ^ k := by
  by_contra hbelow
  have hnone := h.none 0 hj
  rw [Nat.cast_zero, sub_zero] at hnone
  refine not_roundsTo_of_onGrid? hd.pos hnone 1 ?_
  rw [Nat.cast_one, one_mul]
  exact hround.between (roundsTo_self hd.pos) (not_le.1 hbelow).le (magnitude_le hd.pos hd.least)

theorem FirstHit.lt_length (hd : IsDouble m e) {j c d : ℕ} (h : FirstHit tie m e j c) (hj : 0 < j)
    (hround : RoundsTo (d * 10 ^ k) m e) :
    (Interval.ofParts m e).magnitude - k < (Nat.toDigits 10 d).length := by
  have hfine := h.fine hd.pos hj hround
  have hfirst := h.first_digit hd hj hround
  rw [ten_zpow_eq (show (Interval.ofParts m e).magnitude =
    ((Interval.ofParts m e).magnitude - k).toNat + k by omega),
    mul_le_mul_iff_left₀ (ten_zpow_pos k)] at hfirst
  have := lt_length_of_le (n := ((Interval.ofParts m e).magnitude - k).toNat) (c := d)
    (by exact_mod_cast hfirst)
  omega

theorem FirstHit.factor_le {j c : ℕ} (h : FirstHit tie m e j c) : c ≤ 10 ^ (j + 1) := by
  have hgrid : gridBelow m e ((Interval.ofParts m e).magnitude - j) < 10 ^ (j + 1) := by
    have hlt := (gridBelow_le m e ((Interval.ofParts m e).magnitude - j)).trans_lt
      (lt_magnitude m e)
    rw [ten_zpow_eq (show (Interval.ofParts m e).magnitude + 1 =
      (j + 1 : ℕ) + ((Interval.ofParts m e).magnitude - j) by push_cast; ring),
      mul_lt_mul_iff_left₀ (ten_zpow_pos _)] at hlt
    exact_mod_cast hlt
  have hgives := gridGives_onGrid? tie m e ((Interval.ofParts m e).magnitude - j)
  rw [h.some] at hgives
  generalize hc : Option.some c = o at hgives
  cases hgives with
  | nothing => cases hc
  | below =>
    obtain rfl := Option.some.inj hc
    exact hgrid.le
  | above =>
    obtain rfl := Option.some.inj hc
    exact hgrid

theorem FirstHit.length_le (hd : IsDouble m e) {j c : ℕ} (h : FirstHit tie m e j c) :
    (dropTrailingZeros (Nat.toDigits 10 c)).length ≤ j + 1 := by
  have hle := h.factor_le
  rcases Nat.eq_zero_or_pos j with rfl | hj
  · have hten : ∀ n ≤ 10, (dropTrailingZeros (Nat.toDigits 10 n)).length ≤ 1 := by decide
    exact hten c hle
  · refine (length_dropTrailingZeros_le _).trans (length_le_of_lt (by omega) (hle.lt_of_ne ?_))
    -- A power of ten above the magnitude would have been found on the first grid.
    rintro rfl
    have hround := h.roundsTo
    rw [Nat.cast_pow, Nat.cast_ofNat, ← ten_zpow_eq (show (Interval.ofParts m e).magnitude + 1 =
      (j + 1 : ℕ) + ((Interval.ofParts m e).magnitude - j) by push_cast; ring),
      ← one_mul ((10 : ℚ) ^ ((Interval.ofParts m e).magnitude + 1)), ← Nat.cast_one] at hround
    have := h.fine hd.pos hj hround
    omega

theorem exists_firstHit (hd : IsDouble m e) (tie : Tie) :
    ∃ j c, FirstHit tie m e j c ∧
      (shortest tie m e).digits = dropTrailingZeros (Nat.toDigits 10 c) ∧
      (shortest tie m e).Denotes (c * 10 ^ ((Interval.ofParts m e).magnitude - j)) := by
  obtain ⟨j, c, hnone, hsome, hshort⟩ := shortest_first hd tie
  have h : FirstHit tie m e j c := ⟨hnone, hsome⟩
  rw [hshort]
  exact ⟨j, c, h, rfl, denotes_dropTrailingZeros (h.roundsTo.factor_pos hd) _⟩

/-! ## The shortest decimal -/

theorem shortest_length_le (hd : IsDouble m e) (tie : Tie) {d : ℕ}
    (hround : RoundsTo (d * 10 ^ k) m e) :
    (shortest tie m e).digits.length ≤ (Nat.toDigits 10 d).length := by
  obtain ⟨j, c, h, hdigits, -⟩ := exists_firstHit hd tie
  have hlength := h.length_le hd
  rw [hdigits]
  rcases Nat.eq_zero_or_pos j with rfl | hj
  · exact hlength.trans Nat.length_toDigits_pos
  · have hfine := h.fine hd.pos hj hround
    have hlong := h.lt_length hd hj hround
    omega

theorem shortest_nearest (hd : IsDouble m e) (tie : Tie) {d : ℕ}
    (hround : RoundsTo (d * 10 ^ k) m e)
    (hlength : (Nat.toDigits 10 d).length ≤ (shortest tie m e).digits.length) {x : ℚ}
    (hx : (shortest tie m e).Denotes x) : |x - m * 2 ^ e| ≤ |(d * 10 ^ k : ℚ) - m * 2 ^ e| := by
  obtain ⟨j, c, h, hdigits, hdenotes⟩ := exists_firstHit hd tie
  obtain rfl : x = c * 10 ^ ((Interval.ofParts m e).magnitude - j) :=
    hx.value.symm.trans hdenotes.value
  have hshort := h.length_le hd
  rw [hdigits] at hlength
  by_cases hk : (Interval.ofParts m e).magnitude - j ≤ k
  · obtain ⟨d', hd'⟩ := on_finer (c := d) hk
    rw [← hd'] at hround ⊢
    exact onGrid?_nearest hd.pos h.some hround
  · -- One digit below the magnitude: the power of ten between it and the double is nearer.
    rcases Nat.eq_zero_or_pos j with rfl | hj
    · rw [Nat.cast_zero, sub_zero] at hk ⊢
      have hone : d < 10 ^ 1 := (Nat.length_toDigits_le_iff (by norm_num) one_pos).1 (by omega)
      have hmagnitude := magnitude_le hd.pos hd.least
      have hbelow : (d * 10 ^ k : ℚ) ≤ 10 ^ (Interval.ofParts m e).magnitude := by
        calc (d * 10 ^ k : ℚ) ≤ (10 ^ 1 : ℕ) * 10 ^ k := mul_ten_zpow_mono hone.le k
          _ = 10 ^ (k + 1) := by
              rw [ten_zpow_eq (show k + 1 = (1 : ℕ) + k by push_cast; ring), Nat.cast_pow]
              norm_num
          _ ≤ 10 ^ (Interval.ofParts m e).magnitude := zpow_le_zpow_right₀ (by norm_num) (by omega)
      have hpower : RoundsTo ((1 : ℕ) * 10 ^ (Interval.ofParts m e).magnitude) m e := by
        rw [Nat.cast_one, one_mul]
        exact hround.between (roundsTo_self hd.pos) hbelow hmagnitude
      have hsome := h.some
      rw [Nat.cast_zero, sub_zero] at hsome
      refine (onGrid?_nearest hd.pos hsome hpower).trans ?_
      rw [Nat.cast_one, one_mul]
      exact abs_le_abs_of_nonpos (sub_nonpos.2 hmagnitude) (sub_le_sub_right hbelow _)
    · have hlong := h.lt_length hd hj hround
      omega

/-! ## First and last digits -/

theorem head?_toDigits {c : ℕ} (hc : 0 < c) : (Nat.toDigits 10 c).head? ≠ some '0' := by
  induction c using Nat.strong_induction_on with
  | _ c ih =>
    rcases Nat.lt_or_ge c 10 with hlt | hge
    · have hdigit : ∀ n < 10, 0 < n → Nat.digitChar n ≠ '0' := by decide
      rw [Nat.toDigits_of_lt_base hlt, List.head?_cons, Ne, Option.some.injEq]
      exact hdigit c hlt hc
    · rw [Nat.toDigits_of_base_le (by norm_num) hge,
        List.head?_append_of_ne_nil _ Nat.toDigits_ne_nil]
      exact ih (c / 10) (Nat.div_lt_self hc (by norm_num)) (by omega)

theorem getLast?_dropTrailingZeros (cs : List Char) :
    (dropTrailingZeros cs).getLast? ≠ some '0' := by
  rw [dropTrailingZeros, List.getLast?_reverse]
  intro hzero
  have hstop := List.head?_dropWhile_not (· == '0') cs.reverse
  rw [hzero] at hstop
  cases hstop

theorem head?_dropTrailingZeros {cs : List Char} (h : dropTrailingZeros cs ≠ []) :
    (dropTrailingZeros cs).head? = cs.head? := by
  obtain ⟨n, hzeros⟩ := dropTrailingZeros_append cs
  conv_rhs => rw [hzeros, List.head?_append_of_ne_nil _ h]

structure Decimal.IsTrimmed (d : Decimal) : Prop where
  digits : ∀ c ∈ d.digits, isDigit c = true
  ne_nil : d.digits ≠ []
  first : d.digits.head? ≠ some '0'
  last : d.digits.getLast? ≠ some '0'

def Decimal.value (d : Decimal) : ℚ :=
  ofDigits 10 d.digits * 10 ^ (d.exponent + 1 - d.digits.length)

/-- A decimal that rounds to a double, none with fewer digits and none with as many that is nearer
to it. -/
structure Decimal.IsShortest (d : Decimal) (m : ℕ) (e : ℤ) : Prop where
  trimmed : d.IsTrimmed
  rounds : RoundsTo d.value m e
  shortest : ∀ (c : ℕ) (k : ℤ), RoundsTo (c * 10 ^ k) m e →
    d.digits.length ≤ (Nat.toDigits 10 c).length
  nearest : ∀ (c : ℕ) (k : ℤ), RoundsTo (c * 10 ^ k) m e →
    (Nat.toDigits 10 c).length ≤ d.digits.length →
      |d.value - m * 2 ^ e| ≤ |(c * 10 ^ k : ℚ) - m * 2 ^ e|

theorem isShortest_shortest (hd : IsDouble m e) (tie : Tie) : (shortest tie m e).IsShortest m e := by
  obtain ⟨j, c, h, hdigits, hdenotes⟩ := exists_firstHit hd tie
  have hvalue : (shortest tie m e).value = c * 10 ^ ((Interval.ofParts m e).magnitude - j) :=
    hdenotes.value
  have hself : (shortest tie m e).Denotes (shortest tie m e).value := hvalue ▸ hdenotes
  refine ⟨⟨hdenotes.digits, hdenotes.ne_nil, ?_, ?_⟩, hvalue ▸ h.roundsTo,
    fun _ _ hround => shortest_length_le hd tie hround,
    fun _ _ hround hlength => shortest_nearest hd tie hround hlength hself⟩
  · have hne := hdenotes.ne_nil
    rw [hdigits] at hne ⊢
    rw [head?_dropTrailingZeros hne]
    exact head?_toDigits (h.roundsTo.factor_pos hd)
  · rw [hdigits]
    exact getLast?_dropTrailingZeros _

end VueToSan.Number
