import Mathlib.Data.List.TakeWhile
import VueToSan.Proofs.Lexing

/-!
# Numbers before a point

A point that follows a numeral is taken into it if the numeral has only digits. A numeral with a
point or an exponent of its own ends before it.
-/

namespace VueToSan.Number

open VueToSan.Text

theorem digits_append_point {ds : List Char} (h : ds.dropWhile isDigit = []) (rest : List Char) :
    (ds ++ '.' :: rest).takeWhile isDigit = ds.takeWhile isDigit ∧
      (ds ++ '.' :: rest).dropWhile isDigit = '.' :: rest := by
  have hds : ∀ c ∈ ds, isDigit c = true := List.dropWhile_eq_nil_iff.1 h
  have hpoint : ∀ c ∈ ('.' :: rest).head?, isDigit c = false := by
    simp
    decide
  refine ⟨?_, dropWhile_append_stop hds hpoint⟩
  rw [takeWhile_append_stop hds hpoint, List.takeWhile_eq_self_iff.2 hds]

theorem spanExponent_cons {c : Char} {body : List Char} (hc : c = 'e' ∨ c = 'E') (h : body ≠ []) :
    ∃ negative ds, ∀ tail, spanExponent (c :: (body ++ tail)) =
      if ((ds ++ tail).takeWhile isDigit).isEmpty then none
      else some (negative, (ds ++ tail).takeWhile isDigit, (ds ++ tail).dropWhile isDigit) := by
  obtain ⟨d, body, rfl⟩ := List.exists_cons_of_ne_nil h
  by_cases hplus : d = '+'
  · exact ⟨false, body, fun tail => by simp [spanExponent, hc, hplus]⟩
  by_cases hminus : d = '-'
  · exact ⟨true, body, fun tail => by simp [spanExponent, hc, hminus]⟩
  · exact ⟨false, d :: body, fun tail => by simp [spanExponent, hc, hplus, hminus]⟩

theorem spanExponent_append_point {cs exponent : List Char} {negative : Bool}
    (h : spanExponent cs = some (negative, exponent, [])) (rest : List Char) :
    spanExponent (cs ++ '.' :: rest) = some (negative, exponent, '.' :: rest) := by
  cases cs with
  | nil => cases h
  | cons c body =>
    have hc : c = 'e' ∨ c = 'E' := by
      by_contra hc
      simp [spanExponent, hc] at h
    have hbody : body ≠ [] := by
      rintro rfl
      simp [spanExponent] at h
    obtain ⟨sign, ds, hspan⟩ := spanExponent_cons hc hbody
    have hnil := hspan []
    rw [List.append_nil, List.append_nil, h] at hnil
    obtain ⟨hne, hds⟩ := Option.ite_none_left_eq_some.1 hnil.symm
    simp only [Option.some.injEq, Prod.mk.injEq] at hds
    obtain ⟨htake, hdrop⟩ := digits_append_point hds.2.2 rest
    rw [List.cons_append, hspan, htake, hdrop, if_neg hne, hds.1, hds.2.1]

theorem withExponent_append_point {whole fraction tail : List Char} {n : Numeral}
    (htail : tail ≠ []) (h : withExponent whole fraction tail = some (n, [])) (rest : List Char) :
    withExponent whole fraction (tail ++ '.' :: rest) = some (n, '.' :: rest) := by
  unfold withExponent at h ⊢
  cases hspan : spanExponent tail with
  | none =>
    rw [hspan] at h
    simp [htail] at h
  | some parts =>
    obtain ⟨negative, exponent, behind⟩ := parts
    rw [hspan] at h
    simp only [Option.some.injEq, Prod.mk.injEq] at h
    obtain ⟨rfl, rfl⟩ := h
    rw [spanExponent_append_point hspan rest]

theorem exists_digits (cs : List Char) :
    ∃ ds tail, cs = ds ++ tail ∧ (∀ c ∈ ds, isDigit c = true) ∧
      ∀ c ∈ tail.head?, isDigit c = false := by
  refine ⟨cs.takeWhile isDigit, cs.dropWhile isDigit, List.takeWhile_append_dropWhile.symm,
    fun c hc => List.mem_takeWhile_imp hc, fun c hc => ?_⟩
  rw [Option.mem_def, ← List.find?_not_eq_head?_dropWhile] at hc
  simpa using List.find?_some hc

theorem spanNumeral_append_point {cs : List Char} {n : Numeral} (h : spanNumeral cs = some (n, []))
    (hhead : ∃ c tail, cs = c :: tail ∧ isDigit c = true) (hwhole : cs.all isDigit = false)
    (rest : List Char) : spanNumeral (cs ++ '.' :: rest) = some (n, '.' :: rest) := by
  obtain ⟨whole, tail, rfl, hdigits, htail⟩ := exists_digits cs
  have hne : whole ≠ [] := by
    rintro rfl
    obtain ⟨c, more, rfl, hc⟩ := hhead
    rw [htail c rfl] at hc
    cases hc
  cases tail with
  | nil =>
    rw [List.append_nil, List.all_eq_true.2 hdigits] at hwhole
    cases hwhole
  | cons d tail =>
    -- Digits, a point and digits, or digits and an exponent: the new point cannot go on with either.
    by_cases hd : d = '.'
    · subst hd
      obtain ⟨fraction, tail, rfl, hfraction, hstop⟩ := exists_digits tail
      rw [spanNumeral_point hdigits hne hfraction hstop] at h
      have hstop' : ∀ c ∈ (tail ++ '.' :: rest).head?, isDigit c = false := by
        cases tail with
        | nil =>
          simp
          decide
        | cons c tail => simpa using hstop
      rw [List.append_assoc, List.cons_append, List.append_assoc,
        spanNumeral_point hdigits hne hfraction hstop']
      cases tail with
      | nil =>
        cases h
        rfl
      | cons c tail => exact withExponent_append_point (by simp) h rest
    · have hstop : ∀ c ∈ (d :: tail).head?, isDigit c = false ∧ c ≠ '.' := by
        intro c hc
        obtain rfl : d = c := by simpa using hc
        exact ⟨htail d rfl, hd⟩
      rw [spanNumeral_whole hdigits hne hstop] at h
      rw [List.append_assoc, spanNumeral_whole hdigits hne (by simpa using hstop)]
      exact withExponent_append_point (by simp) h rest

end VueToSan.Number

namespace VueToSan.Expr

open VueToSan.Text

theorem lexes_dotted {cs : List Char} {x : Float} (h : Number.WritesNumber cs x)
    (hwhole : cs.all isDigit = false) : Lexes true cs [.number x] := by
  intro rest hrest
  by_cases hpoint : rest.head? = some '.'
  · obtain ⟨more, rfl⟩ : ∃ more, rest = '.' :: more := List.head?_eq_some_iff.1 hpoint
    obtain ⟨n, rfl, hread⟩ := h.reads
    obtain ⟨c, tail, hcs, hdigit, -⟩ := h.head
    have hnil := hread [] (by simp [Number.EndsNumeral])
    rw [List.append_nil] at hnil
    have hspan := Number.spanNumeral_append_point hnil ⟨c, tail, hcs, hdigit⟩ hwhole more
    exact lexesTo_numeral hspan h.head fun d hd => (hrest d hd).1
  · apply lexesTo_number h
    intro c hc
    refine ⟨(hrest c hc).1, ?_⟩
    rintro rfl
    exact hpoint hc

/-- Whether a constant is written with digits only, but for a sign: a point behind it would be
taken for a part of it. -/
def Constant.isWhole : Constant → Bool
  | .number x => (formatNumber x).toList.all fun c => isDigit c || c == '-'
  | _ => false

end VueToSan.Expr
