import VueToSan.Expr.Constant

/-!
# Texts ordered by their code units

No two texts have the same code units. So the comparison of units is a total order of texts, and
texts that it does not tell apart are equal. It is not the order of code points: the pairs of units
that stand for the characters beyond U+FFFF come before the units from U+E000 on.
-/

namespace VueToSan.Text

/-! ## Units of characters -/

/-- Units that are halves of a pair; no character has such a code point. -/
def isSurrogate (u : Nat) : Bool :=
  0xD800 ≤ u && u < 0xE000

theorem toNat_cases (c : Char) : c.toNat < 0xD800 ∨ 0xE000 ≤ c.toNat ∧ c.toNat < 0x110000 := by
  rcases c.valid with h | h
  · exact .inl h
  · exact .inr ⟨h.1, h.2⟩

theorem isSurrogate_toNat (c : Char) : isSurrogate c.toNat = false := by
  rw [isSurrogate, Bool.and_eq_false_iff, decide_eq_false_iff_not, decide_eq_false_iff_not]
  have := toNat_cases c
  omega

def highUnit (c : Char) : Nat := 0xD800 + (c.toNat - 0x10000) / 0x400

def lowUnit (c : Char) : Nat := 0xDC00 + (c.toNat - 0x10000) % 0x400

theorem charUnits_single {c : Char} (h : c.toNat < 0x10000) : charUnits c = [c.toNat] :=
  if_pos h

theorem charUnits_pair {c : Char} (h : 0x10000 ≤ c.toNat) :
    charUnits c = [highUnit c, lowUnit c] :=
  if_neg (Nat.not_lt_of_le h)

theorem highUnit_bounds {c : Char} (h : 0x10000 ≤ c.toNat) :
    0xD800 ≤ highUnit c ∧ highUnit c < 0xDC00 := by
  have := toNat_cases c
  unfold highUnit
  omega

theorem lowUnit_bounds (c : Char) : 0xDC00 ≤ lowUnit c ∧ lowUnit c < 0xE000 := by
  unfold lowUnit
  omega

theorem charUnits_append_inj {c d : Char} {us vs : List Nat}
    (h : charUnits c ++ us = charUnits d ++ vs) : c = d ∧ us = vs := by
  have hc := toNat_cases c
  have hd := toNat_cases d
  rcases Nat.lt_or_ge c.toNat 0x10000 with hc' | hc' <;>
    rcases Nat.lt_or_ge d.toNat 0x10000 with hd' | hd'
  · rw [charUnits_single hc', charUnits_single hd'] at h
    obtain ⟨hcd, hrest⟩ := List.cons.inj h
    exact ⟨Char.toNat_inj.1 hcd, hrest⟩
  · rw [charUnits_single hc', charUnits_pair hd'] at h
    have hcd := (List.cons.inj h).1
    have := highUnit_bounds hd'
    omega
  · rw [charUnits_pair hc', charUnits_single hd'] at h
    have hcd := (List.cons.inj h).1
    have := highUnit_bounds hc'
    omega
  · rw [charUnits_pair hc', charUnits_pair hd'] at h
    obtain ⟨hhigh, htail⟩ := List.cons.inj h
    obtain ⟨hlow, hrest⟩ := List.cons.inj htail
    refine ⟨Char.toNat_inj.1 ?_, hrest⟩
    unfold highUnit at hhigh
    unfold lowUnit at hlow
    omega

theorem charUnits_ne_nil (c : Char) : charUnits c ≠ [] := by
  rcases Nat.lt_or_ge c.toNat 0x10000 with h | h
  · simp [charUnits_single h]
  · simp [charUnits_pair h]

theorem flatMap_charUnits_inj {cs ds : List Char}
    (h : cs.flatMap charUnits = ds.flatMap charUnits) : cs = ds := by
  induction cs generalizing ds with
  | nil =>
    cases ds with
    | nil => rfl
    | cons d ds => exact absurd h.symm (by simp [charUnits_ne_nil])
  | cons c cs ih =>
    cases ds with
    | nil => exact absurd h (by simp [charUnits_ne_nil])
    | cons d ds =>
      rw [List.flatMap_cons, List.flatMap_cons] at h
      obtain ⟨rfl, hrest⟩ := charUnits_append_inj h
      rw [ih hrest]

theorem units_inj {s t : String} : units s = units t ↔ s = t :=
  ⟨fun h => String.toList_inj.1 (flatMap_charUnits_inj h), congrArg units⟩

/-! ## Comparing units -/

theorem compareUnits_lt_iff {us vs : List Nat} : compareUnits us vs = .lt ↔ us < vs := by
  induction us generalizing vs with
  | nil => cases vs <;> simp [compareUnits]
  | cons u us ih =>
    cases vs with
    | nil => simp [compareUnits]
    | cons v vs =>
      rw [compareUnits, List.cons_lt_cons_iff]
      rcases Nat.lt_trichotomy u v with h | rfl | h
      · simp [h]
      · simp [ih]
      · simp [h, Nat.lt_asymm h, Nat.ne_of_gt h]

theorem compareUnits_eq_iff {us vs : List Nat} : compareUnits us vs = .eq ↔ us = vs := by
  induction us generalizing vs with
  | nil => cases vs <;> simp [compareUnits]
  | cons u us ih =>
    cases vs with
    | nil => simp [compareUnits]
    | cons v vs =>
      rw [compareUnits]
      rcases Nat.lt_trichotomy u v with h | rfl | h
      · simp [h, Nat.ne_of_lt h]
      · simp [ih]
      · simp [h, Nat.lt_asymm h, Nat.ne_of_gt h]

theorem compareUnits_swap (us vs : List Nat) :
    compareUnits vs us = (compareUnits us vs).swap := by
  induction us generalizing vs with
  | nil => cases vs <;> rfl
  | cons u us ih =>
    cases vs with
    | nil => rfl
    | cons v vs =>
      rw [compareUnits, compareUnits]
      rcases Nat.lt_trichotomy u v with h | rfl | h
      · simp [h, Nat.lt_asymm h]
      · simp [ih]
      · simp [h, Nat.lt_asymm h]

theorem compareUnits_gt_iff {us vs : List Nat} : compareUnits us vs = .gt ↔ vs < us := by
  rw [← compareUnits_lt_iff, compareUnits_swap us vs]
  cases compareUnits us vs <;> decide

theorem append_lt_append_iff {front us vs : List Nat} : front ++ us < front ++ vs ↔ us < vs := by
  induction front with
  | nil => rfl
  | cons u front ih => simp [ih]

/-- Where two texts part, the character with the smaller code point comes first, unless it stands
behind the surrogates and the other one is written with them. -/
theorem charUnits_lt_iff {c d : Char} (h : c.toNat < d.toNat) (us vs : List Nat) :
    charUnits c ++ us < charUnits d ++ vs ↔
      ¬(0xE000 ≤ c.toNat ∧ c.toNat < 0x10000 ∧ 0x10000 ≤ d.toNat) := by
  have hc := toNat_cases c
  rcases Nat.lt_or_ge c.toNat 0x10000 with hc' | hc' <;>
    rcases Nat.lt_or_ge d.toNat 0x10000 with hd' | hd'
  · rw [charUnits_single hc', charUnits_single hd']
    simp only [List.singleton_append, List.cons_lt_cons_iff]
    omega
  · rw [charUnits_single hc', charUnits_pair hd']
    simp only [List.cons_append, List.cons_lt_cons_iff]
    have := highUnit_bounds hd'
    omega
  · omega
  · rw [charUnits_pair hc', charUnits_pair hd']
    simp only [List.cons_append, List.nil_append, List.cons_lt_cons_iff]
    unfold highUnit lowUnit
    omega

end VueToSan.Text

namespace VueToSan.Expr

open VueToSan.Text

/-! ## Comparisons of texts -/

def TextsCompare (op : BinaryOp) (a b : String) : Prop :=
  Constant.binary? op (.string a) (.string b) = some (.boolean true)

variable {a b c : String}

theorem textsCompare_lt : TextsCompare .lt a b ↔ units a < units b := by
  rw [← compareUnits_lt_iff]
  simp [TextsCompare, Constant.binary?, Constant.compare?]

theorem textsCompare_gt : TextsCompare .gt a b ↔ units b < units a := by
  rw [← compareUnits_gt_iff]
  simp [TextsCompare, Constant.binary?, Constant.compare?]

theorem textsCompare_strictEq : TextsCompare .strictEq a b ↔ a = b := by
  simp [TextsCompare, Constant.binary?, Constant.strictEquals]

theorem textsCompare_eq : TextsCompare .eq a b ↔ a = b := by
  simp [TextsCompare, Constant.binary?, Constant.looseEquals, Constant.isMissing]

theorem textsCompare_ltEq : TextsCompare .ltEq a b ↔ units a < units b ∨ a = b := by
  rw [← compareUnits_lt_iff, ← units_inj, ← compareUnits_eq_iff]
  simp [TextsCompare, Constant.binary?, Constant.compare?]

theorem textsCompare_gtEq : TextsCompare .gtEq a b ↔ units b < units a ∨ a = b := by
  rw [← compareUnits_gt_iff, ← units_inj, ← compareUnits_eq_iff]
  simp [TextsCompare, Constant.binary?, Constant.compare?]

def OneHolds (p q r : Prop) : Prop :=
  p ∧ ¬q ∧ ¬r ∨ ¬p ∧ q ∧ ¬r ∨ ¬p ∧ ¬q ∧ r

theorem oneHolds_textsCompare (a b : String) :
    OneHolds (TextsCompare .lt a b) (TextsCompare .strictEq a b) (TextsCompare .gt a b) := by
  rw [textsCompare_lt, textsCompare_strictEq, textsCompare_gt, ← units_inj, OneHolds]
  cases h : compareUnits (units a) (units b) with
  | lt =>
    rw [compareUnits_lt_iff] at h
    exact .inl ⟨h, fun heq => List.lt_irrefl _ (heq ▸ h), List.lt_asymm h⟩
  | eq =>
    rw [compareUnits_eq_iff] at h
    rw [h]
    exact .inr (.inl ⟨List.lt_irrefl _, rfl, List.lt_irrefl _⟩)
  | gt =>
    rw [compareUnits_gt_iff] at h
    exact .inr (.inr ⟨List.lt_asymm h, fun heq => List.lt_irrefl _ (heq ▸ h), h⟩)

def comparisons : List BinaryOp := [.lt, .gt, .ltEq, .gtEq, .strictEq, .eq]

theorem binary?_texts {op : BinaryOp} (h : op ∈ comparisons) (a b : String) :
    ∃ r, Constant.binary? op (.string a) (.string b) = some (.boolean r) := by
  simp only [comparisons, List.mem_cons, List.not_mem_nil, or_false] at h
  rcases h with rfl | rfl | rfl | rfl | rfl | rfl <;> exact ⟨_, rfl⟩

theorem units_lt_of_parting {front as bs : List Char} {x y : Char} (hxy : x.toNat < y.toNat)
    (ha : a.toList = front ++ x :: as) (hb : b.toList = front ++ y :: bs) :
    units a < units b ↔ ¬(0xE000 ≤ x.toNat ∧ x.toNat < 0x10000 ∧ 0x10000 ≤ y.toNat) := by
  rw [units, units, ha, hb, List.flatMap_append, List.flatMap_append, List.flatMap_cons,
    List.flatMap_cons, append_lt_append_iff, charUnits_lt_iff hxy]

theorem lt_of_parting {front as bs : List Char} {x y : Char} (hxy : x.toNat < y.toNat)
    (ha : a.toList = front ++ x :: as) (hb : b.toList = front ++ y :: bs) : a < b := by
  rw [String.lt_iff, ha, hb]
  exact List.append_left_lt (List.cons_lt_cons_iff.2 (.inl hxy))

/-- The comparisons of texts are a total order that agrees with their equality: the order of their
code units. It puts two texts in the order of code points unless the characters that tell them apart
are one from U+E000 to U+FFFF and one beyond. -/
theorem texts_ordered (a b c : String) :
    (∀ op ∈ comparisons, ∃ r, Constant.binary? op (.string a) (.string b) = some (.boolean r)) ∧
      OneHolds (TextsCompare .lt a b) (TextsCompare .strictEq a b) (TextsCompare .gt a b) ∧
      (TextsCompare .ltEq a b ↔ TextsCompare .lt a b ∨ TextsCompare .strictEq a b) ∧
      (TextsCompare .gtEq a b ↔ TextsCompare .ltEq b a) ∧
      (TextsCompare .eq a b ↔ TextsCompare .strictEq a b) ∧
      (TextsCompare .strictEq a b ↔ a = b) ∧
      (TextsCompare .lt a b → TextsCompare .lt b c → TextsCompare .lt a c) ∧
      (TextsCompare .lt a b ↔ units a < units b) ∧
      ∀ (front as bs : List Char) (x y : Char), x.toNat < y.toNat →
        a.toList = front ++ x :: as → b.toList = front ++ y :: bs →
          a < b ∧ (TextsCompare .lt a b ↔
            ¬(0xE000 ≤ x.toNat ∧ x.toNat < 0x10000 ∧ 0x10000 ≤ y.toNat)) := by
  refine ⟨fun op hop => binary?_texts hop a b, oneHolds_textsCompare a b, ?_, ?_, ?_,
    textsCompare_strictEq, ?_, textsCompare_lt, fun front as bs x y hxy ha hb => ?_⟩
  · rw [textsCompare_ltEq, textsCompare_lt, textsCompare_strictEq]
  · rw [textsCompare_gtEq, textsCompare_ltEq, eq_comm]
  · rw [textsCompare_eq, textsCompare_strictEq]
  · rw [textsCompare_lt, textsCompare_lt, textsCompare_lt]
    exact List.lt_trans
  · rw [textsCompare_lt]
    exact ⟨lt_of_parting hxy ha hb, units_lt_of_parting hxy ha hb⟩

example : TextsCompare .lt "😀" "\uFB01" := by rfl

end VueToSan.Expr
