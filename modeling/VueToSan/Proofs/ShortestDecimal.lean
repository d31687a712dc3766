import VueToSan.Proofs.Rounding

/-!
# Shortest decimals round to their doubles

The search for a shortest decimal stops at a multiple of a power of ten that rounds to the double,
and it does stop: a grid of seventeen digits is finer than the gaps between doubles.
-/

namespace VueToSan.Number

/-! ## Comparing decimals with doubles -/

def sideScale (k p : ℤ) : ℚ := 10 ^ (-k).toNat * 2 ^ (-p).toNat

theorem sideScale_pos (k p : ℤ) : 0 < sideScale k p := by
  unfold sideScale
  positivity

theorem decimalSide_eq (c : ℕ) (k p : ℤ) :
    (decimalSide c k p : ℚ) = c * 10 ^ k * sideScale k p := by
  rw [zpow_eq_div (by norm_num) k]
  simp only [decimalSide, sideScale, Nat.pow_eq]
  push_cast
  field_simp

theorem binarySide_eq (x : ℕ) (k p : ℤ) :
    (binarySide x k p : ℚ) = x * 2 ^ p * sideScale k p := by
  rw [zpow_eq_div two_ne_zero p]
  simp only [binarySide, sideScale, Nat.pow_eq]
  push_cast
  field_simp

theorem decimalSide_le_iff {c x : ℕ} {k p : ℤ} :
    decimalSide c k p ≤ binarySide x k p ↔ (c * 10 ^ k : ℚ) ≤ x * 2 ^ p := by
  rw [← mul_le_mul_iff_left₀ (sideScale_pos k p), ← decimalSide_eq, ← binarySide_eq, Nat.cast_le]

theorem binarySide_le_iff {c x : ℕ} {k p : ℤ} :
    binarySide x k p ≤ decimalSide c k p ↔ (x * 2 ^ p : ℚ) ≤ c * 10 ^ k := by
  rw [← mul_le_mul_iff_left₀ (sideScale_pos k p), ← decimalSide_eq, ← binarySide_eq, Nat.cast_le]

theorem holds_iff {m c : ℕ} {e k : ℤ} :
    (Interval.ofParts m e).holds c k = true ↔ RoundsTo (c * 10 ^ k) m e := by
  have hexp : (Interval.ofParts m e).exponent = e - 2 := rfl
  have hclosed : (Interval.ofParts m e).closed = (m % 2 == 0) := rfl
  unfold Interval.holds RoundsTo
  rw [hexp, hclosed]
  by_cases heven : m % 2 = 0
  · simp [heven, decimalSide_le_iff, binarySide_le_iff]
  · simp [heven, ← not_le, decimalSide_le_iff, binarySide_le_iff]

/-! ## The search -/

theorem holds_of_onGrid? {i : Interval} {tie : Tie} {k : ℤ} {c : ℕ}
    (h : i.onGrid? tie k = some c) : i.holds c k = true := by
  simp only [Interval.onGrid?] at h
  generalize binarySide i.value k i.exponent / decimalSide 1 k i.exponent = d at h
  cases hbelow : i.holds d k with
  | false =>
    cases habove : i.holds (d + 1) k with
    | false => simp [hbelow, habove] at h
    | true =>
      obtain rfl : d + 1 = c := by simpa [hbelow, habove] using h
      exact habove
  | true =>
    cases habove : i.holds (d + 1) k with
    | false =>
      obtain rfl : d = c := by simpa [hbelow, habove] using h
      exact hbelow
    | true =>
      have hc : c = d ∨ c = d + 1 := by
        simp only [hbelow, habove] at h
        split at h
        · exact .inl (Option.some.inj h).symm
        · split at h
          · exact .inr (Option.some.inj h).symm
          · cases tie with
            | up => exact .inr (Option.some.inj h).symm
            | even =>
              have := Option.some.inj h
              omega
      rcases hc with rfl | rfl
      · exact hbelow
      · exact habove

theorem value_eq (m : ℕ) (e : ℤ) :
    (Interval.ofParts m e).value * (2 : ℚ) ^ (e - 2) = m * 2 ^ e := by
  rw [zpow_sub₀ two_ne_zero]
  simp only [Interval.ofParts]
  push_cast
  ring

theorem decimalSide_mul (c : ℕ) (k p : ℤ) : decimalSide c k p = c * decimalSide 1 k p := by
  simp only [decimalSide, one_mul, mul_assoc]

theorem decimalSide_pos (k p : ℤ) : 0 < decimalSide 1 k p := by
  simp only [decimalSide, Nat.pow_eq, one_mul]
  positivity

theorem grid_bracket (m : ℕ) (e k : ℤ) :
    let c := binarySide (Interval.ofParts m e).value k (e - 2) / decimalSide 1 k (e - 2)
    (c * 10 ^ k : ℚ) ≤ m * 2 ^ e ∧ (m * 2 ^ e : ℚ) < (c + 1 : ℕ) * 10 ^ k := by
  intro c
  have hpos := decimalSide_pos k (e - 2)
  rw [← value_eq]
  constructor
  · rw [← decimalSide_le_iff, decimalSide_mul]
    exact Nat.div_mul_le_self _ _
  · rw [← not_le, ← decimalSide_le_iff, decimalSide_mul, not_le, mul_comm]
    exact Nat.lt_mul_div_succ _ hpos

theorem RoundsTo.of_strict {x : ℚ} {m : ℕ} {e : ℤ} (hm : 0 < m) (hlow : (m * 2 ^ e : ℚ) ≤ x)
    (hhigh : x < (m + 1 / 2) * 2 ^ e) : RoundsTo x m e := by
  have hgap : (0 : ℚ) < lowGap m e := by
    have : 0 < lowGap m e := by
      unfold lowGap
      split <;> omega
    exact_mod_cast this
  have hpos := two_zpow_pos e
  have hlow' : ((m : ℚ) - lowGap m e / 4) * 2 ^ e < x := by
    calc ((m : ℚ) - lowGap m e / 4) * 2 ^ e < m * 2 ^ e :=
          mul_lt_mul_of_pos_right (by linarith) hpos
      _ ≤ x := hlow
  unfold RoundsTo
  rw [low_eq hm, high_eq]
  split
  · exact ⟨hlow'.le, hhigh.le⟩
  · exact ⟨hlow', hhigh⟩

theorem onGrid?_ne_none {m : ℕ} (hm : 0 < m) {e k : ℤ} (hk : (10 : ℚ) ^ k < 2 ^ (e - 1))
    (tie : Tie) : (Interval.ofParts m e).onGrid? tie k ≠ none := by
  obtain ⟨hbelow, habove⟩ := grid_bracket m e k
  have hexp : (Interval.ofParts m e).exponent = e - 2 := rfl
  simp only [Interval.onGrid?, hexp]
  generalize binarySide (Interval.ofParts m e).value k (e - 2) / decimalSide 1 k (e - 2) = c
    at hbelow habove ⊢
  have hhit : (Interval.ofParts m e).holds (c + 1) k = true := by
    rw [holds_iff]
    refine .of_strict hm habove.le ?_
    have hhalf : (2 : ℚ) ^ (e - 1) = 1 / 2 * 2 ^ e := by
      rw [zpow_sub₀ two_ne_zero]
      ring
    push_cast
    linarith
  cases (Interval.ofParts m e).holds c k with
  | false => simp [hhit]
  | true =>
    simp only [hhit]
    split
    · simp
    · split
      · simp
      · cases tie <;> simp

theorem pow_length_le {n : ℕ} (hn : 0 < n) : 10 ^ ((Nat.toDigits 10 n).length - 1) ≤ n := by
  by_cases hone : (Nat.toDigits 10 n).length - 1 = 0
  · rw [hone]
    exact hn
  · rw [← not_lt, ← Nat.length_toDigits_le_iff (by norm_num) (by omega)]
    omega

theorem magnitude_le {m : ℕ} (hm : 0 < m) {e : ℤ} (he : -1074 ≤ e) :
    (10 : ℚ) ^ (Interval.ofParts m e).magnitude ≤ m * 2 ^ e := by
  obtain ⟨hbelow, habove⟩ := grid_bracket m e (-400)
  have hexp : (Interval.ofParts m e).exponent = e - 2 := rfl
  unfold Interval.magnitude
  rw [hexp]
  generalize binarySide (Interval.ofParts m e).value (-400) (e - 2) /
    decimalSide 1 (-400) (e - 2) = n at hbelow habove ⊢
  have hn : 0 < n := by
    rw [Nat.pos_iff_ne_zero]
    rintro rfl
    have hleast : (2 : ℚ) ^ (-1074 : ℤ) ≤ m * 2 ^ e := by
      calc (2 : ℚ) ^ (-1074 : ℤ) ≤ 2 ^ e := two_zpow_mono he
        _ ≤ m * 2 ^ e := by
          have : (1 : ℚ) ≤ m := by exact_mod_cast hm
          nlinarith [two_zpow_pos e]
    have hsmall : (10 : ℚ) ^ (-400 : ℤ) < 2 ^ (-1074 : ℤ) := by
      have hpow : (2 : ℕ) ^ 1074 < 10 ^ 400 := by decide +kernel
      rw [zpow_neg, zpow_neg, inv_lt_inv₀ (by positivity) (by positivity)]
      exact_mod_cast hpow
    rw [zero_add, Nat.cast_one, one_mul] at habove
    exact absurd (hsmall.trans_le hleast) habove.not_gt
  have hlen := Nat.length_toDigits_pos (b := 10) (n := n)
  have hpow : (10 : ℚ) ^ ((Nat.toDigits 10 n).length - 1) ≤ n := by
    exact_mod_cast pow_length_le hn
  calc (10 : ℚ) ^ (((Nat.toDigits 10 n).length : ℤ) - 401)
      = 10 ^ ((Nat.toDigits 10 n).length - 1) * 10 ^ (-400 : ℤ) := by
        rw [← zpow_natCast, ← zpow_add₀ (by norm_num)]
        congr 1
        omega
    _ ≤ n * 10 ^ (-400 : ℤ) := mul_le_mul_of_nonneg_right hpow (by positivity)
    _ ≤ m * 2 ^ e := hbelow

theorem search_first {i : Interval} {tie : Tie} {n : ℕ} {k : ℤ}
    (h : ∃ j < n, i.onGrid? tie (k - j) ≠ none) :
    ∃ (j c : ℕ), (∀ l < j, i.onGrid? tie (k - l) = none) ∧ i.onGrid? tie (k - j) = some c ∧
      i.search tie n k =
        ⟨dropTrailingZeros (Nat.toDigits 10 c), k - j + (Nat.toDigits 10 c).length - 1⟩ := by
  induction n generalizing k with
  | zero =>
    obtain ⟨j, hj, -⟩ := h
    omega
  | succ n ih =>
    cases hgrid : i.onGrid? tie k with
    | some c =>
      refine ⟨0, c, fun l hl => absurd hl (Nat.not_lt_zero l), ?_, ?_⟩
      · simpa using hgrid
      · simp [Interval.search, hgrid]
    | none =>
      have hnext (l : ℕ) : k - 1 - (l : ℤ) = k - (l + 1 : ℕ) := by
        push_cast
        ring
      obtain ⟨j, hj, hne⟩ := h
      obtain ⟨j, rfl⟩ : ∃ i, j = i + 1 := by
        refine ⟨j - 1, ?_⟩
        have : j ≠ 0 := by
          rintro rfl
          simp [hgrid] at hne
        omega
      obtain ⟨j, c, hnone, hc, hsearch⟩ := ih ⟨j, by omega, by rwa [hnext]⟩
      refine ⟨j + 1, c, fun l hl => ?_, hnext j ▸ hc, ?_⟩
      · cases l with
        | zero => simpa using hgrid
        | succ l => exact hnext l ▸ hnone l (by omega)
      · rw [← hnext, ← hsearch, Interval.search, hgrid]

theorem shortest_first {m : ℕ} {e : ℤ} (hd : IsDouble m e) (tie : Tie) :
    ∃ (j c : ℕ),
      (∀ l < j, (Interval.ofParts m e).onGrid? tie ((Interval.ofParts m e).magnitude - l) = none) ∧
      (Interval.ofParts m e).onGrid? tie ((Interval.ofParts m e).magnitude - j) = some c ∧
      shortest tie m e = ⟨dropTrailingZeros (Nat.toDigits 10 c),
        (Interval.ofParts m e).magnitude - j + (Nat.toDigits 10 c).length - 1⟩ := by
  have hmag := magnitude_le hd.pos hd.least
  have hm : (m : ℚ) < 2 ^ 53 := by exact_mod_cast hd.lt
  have hpos := two_zpow_pos e
  have hfine : (10 : ℚ) ^ ((Interval.ofParts m e).magnitude - (17 : ℕ)) < 2 ^ (e - 1) := by
    rw [zpow_sub₀ (by norm_num), zpow_natCast, zpow_sub₀ two_ne_zero, zpow_one,
      div_lt_div_iff₀ (by norm_num) (by norm_num)]
    calc (10 : ℚ) ^ (Interval.ofParts m e).magnitude * 2 ≤ m * 2 ^ e * 2 := by linarith
      _ < 2 ^ 53 * 2 ^ e * 2 := by nlinarith
      _ ≤ 2 ^ e * 10 ^ 17 := by nlinarith
  exact search_first (n := 18) ⟨17, by norm_num, onGrid?_ne_none hd.pos hfine tie⟩

/-- The shortest decimal of a double is a multiple of a power of ten that rounds to it, less the
zeros at its end. -/
theorem shortest_spec {m : ℕ} {e : ℤ} (hd : IsDouble m e) (tie : Tie) :
    ∃ (c : ℕ) (k : ℤ), RoundsTo (c * 10 ^ k) m e ∧ shortest tie m e =
      ⟨dropTrailingZeros (Nat.toDigits 10 c), k + (Nat.toDigits 10 c).length - 1⟩ := by
  obtain ⟨j, c, -, hc, hshort⟩ := shortest_first hd tie
  exact ⟨c, _, holds_iff.1 (holds_of_onGrid? hc), hshort⟩

end VueToSan.Number
