import VueToSan.Proofs.ReadRounds

/-!
# Reading comes to an end

Every round takes a character at least. So reading stops where it has to, at the end or at an end
tag of an open element, and more rounds than characters change nothing.
-/

namespace VueToSan.Markup

open VueToSan.Text

theorem rest_ne_nil {opened : List String} {c : Cursor} (h : rowEnds opened c = false) :
    c.rest ≠ [] := by
  intro hnil
  simp [rowEnds, Cursor.atEnd, hnil] at h

theorem length_readStartTag_lt (parent : Option String) {c : Cursor} (hc : c.rest ≠ []) :
    (readStartTag parent c).cursor.rest.length < c.rest.length :=
  Nat.lt_of_le_of_lt (readStartTag_behind parent c).length_le
    (Cursor.length_advance_lt hc (Nat.succ_pos _))

theorem length_readLeaf_lt {options : ReadOptions} {top : Bool} {c : Cursor} (hc : c.rest ≠ [])
    (hopen : opensElement c = false) :
    (readLeaf options top c).cursor.rest.length < c.rest.length := by
  unfold readLeaf
  split
  · exact Nat.lt_of_le_of_lt (Cursor.reaches_skipPast _ _).length_le
      (Cursor.length_advance_lt hc (Nat.succ_pos 3))
  · split
    · exact Cursor.length_skipPast_lt hc (by decide)
    · rename_i hbang
      have hmarkup : atMarkup c.rest = false := by
        simpa [opensElement, hbang] using hopen
      have hrun := Cursor.length_advance_lt hc (List.length_pos_iff.2 (textRun_ne_nil hc hmarkup))
      unfold readText
      dsimp only
      split
      · exact hrun
      · split <;> exact hrun

theorem length_readRound_lt (options : ReadOptions) (n : Nat) {opened : List String} {c : Cursor}
    (h : rowEnds opened c = false) :
    (readRound options n opened c).cursor.rest.length < c.rest.length := by
  have hc := rest_ne_nil h
  unfold readRound
  split
  · exact Cursor.length_skipPast_lt hc (by decide)
  · split
    · exact Nat.lt_of_le_of_lt (readInside_behind options n opened c).length_le
        (length_readStartTag_lt _ hc)
    · rename_i hopen
      exact length_readLeaf_lt hc (Bool.eq_false_iff.2 hopen)

theorem rowEnds_readNodes {options : ReadOptions} {n : Nat} {opened : List String} {c : Cursor}
    (hn : c.rest.length < n) : rowEnds opened (readNodes options n opened c).cursor = true := by
  induction n generalizing opened c with
  | zero => exact absurd hn (Nat.not_lt_zero _)
  | succ n ih =>
    rw [readNodes_succ]
    split
    · assumption
    · rename_i hends
      have hround := length_readRound_lt options n (Bool.eq_false_iff.2 hends)
      exact ih (by omega)

theorem readNodes_fuel {options : ReadOptions} {n m : Nat} {opened : List String} {c : Cursor}
    (hn : c.rest.length < n) (hm : c.rest.length < m) :
    readNodes options n opened c = readNodes options m opened c := by
  induction n generalizing m opened c with
  | zero => exact absurd hn (Nat.not_lt_zero _)
  | succ n ih =>
    obtain ⟨m, rfl⟩ : ∃ k, m = k + 1 := ⟨m - 1, by omega⟩
    rw [readNodes_succ, readNodes_succ]
    by_cases hends : rowEnds opened c = true
    · rw [if_pos hends, if_pos hends]
    · rw [if_neg hends, if_neg hends]
      have hopened := Bool.eq_false_iff.2 hends
      have hround : readRound options n opened c = readRound options m opened c := by
        have htag := length_readStartTag_lt opened.head? (rest_ne_nil hopened)
        have hbelow (tag : String) :
            readNodes options n (tag :: opened) (readStartTag opened.head? c).cursor =
              readNodes options m (tag :: opened) (readStartTag opened.head? c).cursor :=
          ih (by omega) (by omega)
        have hinside : readInside options n opened c = readInside options m opened c := by
          simp only [readInside, hbelow]
        simp only [readRound, readElement, hinside]
      have hlength := length_readRound_lt options m hopened
      rw [hround, ih (m := m) (by omega) (by omega)]

end VueToSan.Markup
