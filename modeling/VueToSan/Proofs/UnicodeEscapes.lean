import VueToSan.Proofs.CodeUnits
import VueToSan.Proofs.NumericTexts

/-!
# Escapes of code units and code points

The escape of a code point, with braces, is resolved to its character for every character. The
escape of a code unit is resolved by itself: a unit that is a character gives the character, and
half of a pair gives the four digits that it is written with. So a text comes back from the escapes
of its units exactly when it has no character beyond U+FFFF.
-/

namespace VueToSan.Expr

open VueToSan.Text VueToSan.Number

/-! ## Hexadecimal digits -/

def IsHex (n : Nat) (ds : List Char) : Prop :=
  IsRun (isDigitOf 16) ds ∧ ofDigits 16 ds = n

def hexDigits : Nat → Nat → List Char
  | 0, _ => []
  | k + 1, n => hexDigits k (n / 16) ++ [Nat.digitChar (n % 16)]

theorem length_hexDigits (k n : Nat) : (hexDigits k n).length = k := by
  induction k generalizing n with
  | zero => rfl
  | succ k ih => rw [hexDigits, List.length_append, ih, List.length_singleton]

theorem digitValue_digitChar {n : Nat} (h : n < 16) : digitValue (Nat.digitChar n) = n := by
  revert n
  decide

theorem ofDigits_hexDigits {k n : Nat} (h : n < 16 ^ k) : ofDigits 16 (hexDigits k n) = n := by
  induction k generalizing n with
  | zero =>
    obtain rfl : n = 0 := by simpa using h
    rfl
  | succ k ih =>
    have hlast := digitValue_digitChar (Nat.mod_lt n (show 0 < 16 by decide))
    have hrest := ih (n := n / 16) (Nat.div_lt_of_lt_mul (by rwa [Nat.mul_comm, ← Nat.pow_succ]))
    rw [ofDigits] at hrest
    rw [hexDigits, ofDigits, List.foldl_append, hrest, List.foldl_cons, List.foldl_nil, hlast]
    exact Nat.div_add_mod' n 16

theorem isHex_hexDigits {k n : Nat} (hk : k ≠ 0) (h : n < 16 ^ k) : IsHex n (hexDigits k n) := by
  refine ⟨⟨?_, ?_⟩, ofDigits_hexDigits h⟩
  · rwa [← List.length_pos_iff, length_hexDigits, Nat.pos_iff_ne_zero]
  · clear h hk
    induction k generalizing n with
    | zero => simp [hexDigits]
    | succ k ih =>
      intro d hd
      rw [hexDigits, List.mem_append, List.mem_singleton] at hd
      rcases hd with hd | rfl
      · exact ih d hd
      · have hlt := Nat.mod_lt n (show 0 < 16 by decide)
        rw [isDigitOf, digitValue_digitChar hlt, decide_eq_true hlt]

/-! ## One escape -/

theorem charOfCode?_toNat (c : Char) : charOfCode? c.toNat = some c := by
  have hc := toNat_cases c
  rw [charOfCode?, if_pos (by omega), Char.ofNat_toNat]

theorem charOfCode?_unit {u : Nat} (h : u < 0x10000) :
    charOfCode? u = if isSurrogate u then none else some (Char.ofNat u) := by
  simp only [charOfCode?, isSurrogate, Bool.and_eq_true, decide_eq_true_eq]
  by_cases hu : 0xD800 ≤ u ∧ u < 0xE000
  · rw [if_pos hu, if_neg (by omega)]
  · rw [if_neg hu, if_pos (by omega)]

theorem hexEscape_eq {n : Nat} {ds : List Char} (h : IsHex n ds) :
    hexEscape ds = (charOfCode? n).elim ds ([·]) := by
  have hread : readUnsigned? 16 ds = some n :=
    (readUnsigned?_eq_some (by decide)).2 ⟨ds, .inl rfl, h⟩
  rw [hexEscape, hread, Option.bind_some]
  cases charOfCode? n <;> rfl

theorem unescapeFrom_skip (body rest : List Char) :
    unescapeFrom body.length (body ++ rest) = unescapeFrom 0 rest := by
  induction body with
  | nil => rfl
  | cons c body ih => rw [List.length_cons, List.cons_append, unescapeFrom, ih]

theorem unescapeFrom_escape {body out rest : List Char}
    (h : escape (body ++ rest) = (out, body.length)) :
    unescapeFrom 0 ('\\' :: (body ++ rest)) = out ++ unescapeFrom 0 rest := by
  rw [unescapeFrom, if_pos rfl, h, unescapeFrom_skip]

/-! ## Code units -/

def IsUnitCode (u : Nat) (ds : List Char) : Prop :=
  IsHex u ds ∧ ds.length = 4

def unitEscape (ds : List Char) : List Char := '\\' :: 'u' :: ds

def unitText (ds : List Char) : List Char :=
  if isSurrogate (ofDigits 16 ds) then ds else [Char.ofNat (ofDigits 16 ds)]

theorem unescapeFrom_unitEscape {u : Nat} (hu : u < 0x10000) {ds : List Char}
    (h : IsUnitCode u ds) (rest : List Char) :
    unescapeFrom 0 (unitEscape ds ++ rest) = unitText ds ++ unescapeFrom 0 rest := by
  obtain ⟨hhex, hlen⟩ := h
  have hescape : escape ('u' :: ds ++ rest) = (hexEscape ds, ('u' :: ds).length) := by
    have htake : (ds ++ rest).take 4 = ds := by rw [← hlen, List.take_left]
    obtain ⟨d, ds, rfl⟩ := List.exists_cons_of_ne_nil hhex.1.1
    have hd : d ≠ '{' := by
      rintro rfl
      exact absurd (hhex.1.2 '{' List.mem_cons_self) (by decide)
    rw [List.cons_append] at htake
    rw [List.cons_append, List.cons_append, escape]
    · rw [htake, List.length_cons, Nat.add_comm]
      rfl
    · simpa using hd
  have htext : hexEscape ds = unitText ds := by
    rw [hexEscape_eq hhex, charOfCode?_unit hu, unitText, hhex.2]
    split_ifs <;> rfl
  rw [← htext]
  exact unescapeFrom_escape hescape

theorem charUnits_lt (c : Char) : ∀ u ∈ charUnits c, u < 0x10000 := by
  intro u hu
  rcases Nat.lt_or_ge c.toNat 0x10000 with h | h
  · rw [charUnits_single h, List.mem_singleton] at hu
    rwa [hu]
  · have hhigh := highUnit_bounds h
    have hlow := lowUnit_bounds c
    rw [charUnits_pair h, List.mem_cons, List.mem_singleton] at hu
    omega

theorem units_lt (s : String) : ∀ u ∈ units s, u < 0x10000 := by
  intro u hu
  obtain ⟨c, -, hc⟩ := List.mem_flatMap.1 hu
  exact charUnits_lt c u hc

theorem unescapeChars_units {us : List Nat} (hus : ∀ u ∈ us, u < 0x10000)
    {groups : List (List Char)} (h : List.Forall₂ IsUnitCode us groups) :
    unescapeChars (groups.flatMap unitEscape) = groups.flatMap unitText := by
  induction h with
  | nil => rfl
  | cons hds _ ih =>
    obtain ⟨hu, hus⟩ := List.forall_mem_cons.1 hus
    rw [List.flatMap_cons, List.flatMap_cons, ← ih hus, unescapeChars,
      unescapeFrom_unitEscape hu hds, unescapeChars]

theorem toNat_ofNat_lt {u : Nat} (hu : u < 0x10000) : (Char.ofNat u).toNat < 0x10000 := by
  by_cases hvalid : u.isValidChar
  · rw [Char.ofNat, dif_pos hvalid]
    exact hu
  · rw [Char.ofNat, dif_neg hvalid]
    decide

theorem isDigitOf_lt {base : Nat} (hbase : base ≤ 36) {c : Char} (h : isDigitOf base c = true) :
    c.toNat < 0x80 := by
  have hdigit : digitValue c < base := of_decide_eq_true h
  simp only [digitValue, isDigit_iff, isLower_iff, isUpper_iff] at hdigit
  split_ifs at hdigit <;> omega

theorem unitText_lt {u : Nat} (hu : u < 0x10000) {ds : List Char} (h : IsUnitCode u ds) :
    ∀ c ∈ unitText ds, c.toNat < 0x10000 := by
  intro c hc
  rw [unitText, h.1.2] at hc
  split_ifs at hc
  · have := isDigitOf_lt (by decide) (h.1.1.2 c hc)
    omega
  · rw [List.mem_singleton.1 hc]
    exact toNat_ofNat_lt hu

theorem unitTexts_lt {us : List Nat} (hus : ∀ u ∈ us, u < 0x10000) {groups : List (List Char)}
    (h : List.Forall₂ IsUnitCode us groups) :
    ∀ c ∈ groups.flatMap unitText, c.toNat < 0x10000 := by
  induction h with
  | nil => simp
  | cons hds _ ih =>
    obtain ⟨hu, hus⟩ := List.forall_mem_cons.1 hus
    rw [List.flatMap_cons, List.forall_mem_append]
    exact ⟨unitText_lt hu hds, ih hus⟩

theorem unitTexts_single {cs : List Char} (hcs : ∀ c ∈ cs, c.toNat < 0x10000)
    {groups : List (List Char)} (h : List.Forall₂ IsUnitCode (cs.flatMap charUnits) groups) :
    groups.flatMap unitText = cs := by
  induction cs generalizing groups with
  | nil =>
    cases h
    rfl
  | cons c cs ih =>
    obtain ⟨hc, hcs⟩ := List.forall_mem_cons.1 hcs
    rw [List.flatMap_cons, charUnits_single hc, List.singleton_append] at h
    obtain ⟨ds, groups, hds, hgroups, rfl⟩ := List.forall₂_cons_left_iff.1 h
    rw [List.flatMap_cons, ih hcs hgroups, unitText, hds.1.2, isSurrogate_toNat,
      if_neg Bool.false_ne_true, Char.ofNat_toNat, List.singleton_append]

/-! ## Code points -/

def pointEscape (ds : List Char) : List Char := '\\' :: 'u' :: '{' :: (ds ++ ['}'])

theorem unescapeFrom_pointEscape {c : Char} {ds : List Char} (h : IsHex c.toNat ds)
    (rest : List Char) :
    unescapeFrom 0 (pointEscape ds ++ rest) = c :: unescapeFrom 0 rest := by
  have htake : (ds ++ '}' :: rest).takeWhile (· ≠ '}') = ds := by
    refine takeWhile_append_stop (fun d hd => ?_) (by simp)
    rw [decide_eq_true_eq]
    rintro rfl
    exact absurd (h.1.2 '}' hd) (by decide)
  have hescape : escape ('u' :: '{' :: (ds ++ ['}']) ++ rest) =
      ([c], ('u' :: '{' :: (ds ++ ['}'])).length) := by
    rw [List.cons_append, List.cons_append, List.append_assoc, List.singleton_append, escape,
      htake, hexEscape_eq h, charOfCode?_toNat]
    simp only [List.length_cons, List.length_append, List.length_nil, Option.elim_some]
    congr 1
    omega
  exact unescapeFrom_escape hescape

theorem unescapeChars_points {cs : List Char} {groups : List (List Char)}
    (h : List.Forall₂ (fun c ds => IsHex c.toNat ds) cs groups) :
    unescapeChars (groups.flatMap pointEscape) = cs := by
  induction h with
  | nil => rfl
  | cons hds _ ih =>
    rw [unescapeChars] at ih
    rw [List.flatMap_cons, unescapeChars, unescapeFrom_pointEscape hds, ih]

/-! ## Texts -/

theorem forall₂_hexDigits {α : Type} {as : List α} {f : α → Nat} {k : Nat} (hk : k ≠ 0)
    (h : ∀ a ∈ as, f a < 16 ^ k) :
    List.Forall₂ (fun a ds => IsHex (f a) ds ∧ ds.length = k) as
      (as.map fun a => hexDigits k (f a)) := by
  rw [List.forall₂_map_right_iff, List.forall₂_same]
  exact fun a ha => ⟨isHex_hexDigits hk (h a ha), length_hexDigits k (f a)⟩

/-- Every text can be written with the escapes of its units and with those of its code points. From
the latter it comes back. From the former it comes back exactly when it has no character beyond
U+FFFF; such a character comes back as the digits of its two units. -/
theorem unescape_escapes (s : String) :
    (∃ groups, List.Forall₂ IsUnitCode (units s) groups) ∧
      (∃ groups, List.Forall₂ (fun c ds => IsHex c.toNat ds) s.toList groups) ∧
      (∀ groups, List.Forall₂ IsUnitCode (units s) groups →
        (unescape (String.ofList (groups.flatMap unitEscape))).toList = groups.flatMap unitText ∧
          (unescape (String.ofList (groups.flatMap unitEscape)) = s ↔
            ∀ c ∈ s.toList, c.toNat < 0x10000)) ∧
      ∀ groups, List.Forall₂ (fun c ds => IsHex c.toNat ds) s.toList groups →
        unescape (String.ofList (groups.flatMap pointEscape)) = s := by
  refine ⟨⟨_, forall₂_hexDigits (by decide) (units_lt s)⟩, ?_, fun groups h => ?_,
    fun groups h => ?_⟩
  · have hpoints : ∀ c ∈ s.toList, c.toNat < 16 ^ 6 := by
      intro c _
      have := toNat_cases c
      omega
    exact ⟨_, (forall₂_hexDigits (by decide) hpoints).imp fun _ _ hds => hds.1⟩
  · have hresult := unescapeChars_units (units_lt s) h
    rw [unescape, String.toList_ofList, String.toList_ofList, hresult]
    refine ⟨rfl, fun heq => ?_, fun hs => ?_⟩
    · rw [← heq, String.toList_ofList]
      exact unitTexts_lt (units_lt s) h
    · rw [unitTexts_single hs h, String.ofList_toList]
  · rw [unescape, String.toList_ofList, unescapeChars_points h, String.ofList_toList]

/-- The two units of a character beyond U+FFFF come back as eight digits. -/
theorem pair_spelled_out :
    ∃ groups, List.Forall₂ IsUnitCode (units "😀") groups ∧
      String.ofList (groups.flatMap unitEscape) = "\\ud83d\\ude00" ∧
      unescape "\\ud83d\\ude00" = "d83dde00" ∧ "d83dde00" ≠ "😀" := by
  have hhigh : IsUnitCode 0xD83D "d83d".toList :=
    ⟨⟨⟨by decide, forall_of_all (by decide)⟩, by decide⟩, by decide⟩
  have hlow : IsUnitCode 0xDE00 "de00".toList :=
    ⟨⟨⟨by decide, forall_of_all (by decide)⟩, by decide⟩, by decide⟩
  have hunits : units "😀" = [0xD83D, 0xDE00] := by decide
  rw [hunits]
  exact ⟨["d83d".toList, "de00".toList], .cons hhigh (.cons hlow .nil), by decide, by decide,
    by decide⟩

end VueToSan.Expr
