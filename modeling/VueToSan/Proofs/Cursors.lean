import VueToSan.Proofs.Characters
import VueToSan.Source.Cursor

/-!
# Moving a cursor over known text
-/

namespace VueToSan.Cursor

open VueToSan.Text

theorem advance_append (pos : Nat) (cs rest : List Char) :
    (Cursor.mk pos (cs ++ rest)).advance cs.length = ⟨pos + byteLength cs, rest⟩ := by
  simp [advance]

theorem skipWhile_append {p : Char → Bool} {rest : List Char} (pos : Nat) (cs : List Char)
    (hcs : ∀ c ∈ cs, p c = true) (hrest : ∀ c ∈ rest.head?, p c = false) :
    (Cursor.mk pos (cs ++ rest)).skipWhile p = ⟨pos + byteLength cs, rest⟩ := by
  rw [skipWhile, takeWhile_append_stop hcs hrest, advance_append]

theorem skipWhile_stop {p : Char → Bool} {rest : List Char} (pos : Nat)
    (hrest : ∀ c ∈ rest.head?, p c = false) : (Cursor.mk pos rest).skipWhile p = ⟨pos, rest⟩ := by
  simpa using skipWhile_append pos [] (by simp) hrest

theorem head?_skipWhile (p : Char → Bool) (c : Cursor) :
    ∀ d ∈ (c.skipWhile p).rest.head?, p d = false := by
  obtain ⟨pos, cs⟩ := c
  induction cs generalizing pos with
  | nil => simp [skipWhile, advance]
  | cons c cs ih =>
    intro d hd
    by_cases hc : p c = true
    · refine ih 0 d ?_
      simpa [skipWhile, advance, hc] using hd
    · have : d = c := by simpa [skipWhile, advance, hc] using hd.symm
      simpa [this] using hc

theorem skipWhile_skipWhile (p : Char → Bool) (c : Cursor) :
    (c.skipWhile p).skipWhile p = c.skipWhile p :=
  skipWhile_stop _ (head?_skipWhile p c)

theorem skipPast_greater (pos : Nat) (rest : List Char) :
    (Cursor.mk pos ('>' :: rest)).skipPast ">" = ⟨pos + 1, rest⟩ := by
  have hbefore : (Cursor.mk pos ('>' :: rest)).textBefore ">" = [] := by
    simp [textBefore, breakAt?]
  have hto : (Cursor.mk pos ('>' :: rest)).skipTo ">" = ⟨pos, '>' :: rest⟩ := by
    simp [skipTo, hbefore, advance]
  have hnext : (Cursor.mk pos ('>' :: rest)).startsWith ">" = true := by
    simp [startsWith]
  rw [skipPast, hto, skipWord, if_pos hnext]
  exact advance_append pos ['>'] rest

/-! ## A cursor never goes back -/

def Reaches (c d : Cursor) : Prop := ∃ cs, c.rest = cs ++ d.rest ∧ d.pos = c.pos + byteLength cs

namespace Reaches

variable {c d e : Cursor}

theorem refl (c : Cursor) : c.Reaches c := ⟨[], rfl, rfl⟩

theorem trans (h : c.Reaches d) (h' : d.Reaches e) : c.Reaches e := by
  obtain ⟨cs, hcs, hpos⟩ := h
  obtain ⟨ds, hds, hpos'⟩ := h'
  refine ⟨cs ++ ds, ?_, ?_⟩
  · rw [hcs, hds, List.append_assoc]
  · rw [hpos', hpos, byteLength_append, Nat.add_assoc]

theorem suffix (h : c.Reaches d) : d.rest <:+ c.rest := by
  obtain ⟨cs, hcs, -⟩ := h
  exact ⟨cs, hcs.symm⟩

theorem pos_le (h : c.Reaches d) : c.pos ≤ d.pos := by
  obtain ⟨cs, -, hpos⟩ := h
  omega

theorem length_le (h : c.Reaches d) : d.rest.length ≤ c.rest.length := h.suffix.length_le

end Reaches

theorem reaches_advance (c : Cursor) (n : Nat) : c.Reaches (c.advance n) :=
  ⟨c.rest.take n, (List.take_append_drop n c.rest).symm, rfl⟩

theorem reaches_skipWhile (c : Cursor) (p : Char → Bool) : c.Reaches (c.skipWhile p) :=
  c.reaches_advance _

theorem reaches_skipTo (c : Cursor) (word : String) : c.Reaches (c.skipTo word) :=
  c.reaches_advance _

theorem reaches_skipWord (c : Cursor) (word : String) : c.Reaches (c.skipWord word) := by
  unfold skipWord
  split
  · exact c.reaches_advance _
  · exact .refl c

theorem reaches_skipPast (c : Cursor) (word : String) : c.Reaches (c.skipPast word) :=
  (c.reaches_skipTo word).trans ((c.skipTo word).reaches_skipWord word)

theorem textBefore_prefix (c : Cursor) (word : String) : c.textBefore word <+: c.rest := by
  unfold textBefore
  cases hbreak : breakAt? word.toList c.rest with
  | none => exact List.prefix_rfl
  | some parts =>
    obtain ⟨before, after⟩ := parts
    exact ⟨after, (breakAt?_eq_some hbreak).1.symm⟩

theorem slice_advance {source : String} {c : Cursor} (hc : (start source).Reaches c)
    {cs : List Char} (hcs : cs <+: c.rest) :
    ((c.advance cs.length).spanFrom c.pos).slice source = String.ofList cs := by
  obtain ⟨front, hfront, hpos⟩ := hc
  obtain ⟨rest, hrest⟩ := hcs
  have hstart : c.pos = byteLength front := by simpa [start] using hpos
  have hsource : source.toList = front ++ (cs ++ rest) := by rw [hrest]; exact hfront
  have hstop : (c.advance cs.length).pos = byteLength front + byteLength cs := by
    simp [advance, ← hrest, hstart]
  rw [Span.slice, spanFrom, hstop, hstart, hsource, sliceBytes?_append, Option.getD_some]

/-! ## A cursor goes on -/

theorem length_advance_lt {c : Cursor} {n : Nat} (hc : c.rest ≠ []) (hn : 0 < n) :
    (c.advance n).rest.length < c.rest.length := by
  have hlength := List.length_pos_iff.2 hc
  simp only [advance, List.length_drop]
  omega

theorem length_skipPast_lt {c : Cursor} {word : String} (hc : c.rest ≠ []) (hword : word ≠ "") :
    (c.skipPast word).rest.length < c.rest.length := by
  have hword : 0 < word.length := by
    rwa [Nat.pos_iff_ne_zero, Ne, String.length_eq_zero_iff]
  by_cases hbefore : c.textBefore word = []
  · -- The word is next, so that it is skipped itself.
    have hstay : c.skipTo word = c := by
      simp [skipTo, hbefore, advance]
    have hnext : c.startsWith word = true := by
      unfold textBefore at hbefore
      cases hbreak : breakAt? word.toList c.rest with
      | none => simp [hbreak, hc] at hbefore
      | some parts =>
        obtain ⟨before, after⟩ := parts
        obtain ⟨hrest, hafter⟩ := breakAt?_eq_some hbreak
        simp only [hbreak, Option.map_some, Option.getD_some] at hbefore
        rw [startsWith, List.isPrefixOf_iff_prefix, hrest, hbefore]
        exact hafter
    rw [skipPast, hstay, skipWord, if_pos hnext]
    exact length_advance_lt hc hword
  · exact Nat.lt_of_le_of_lt ((c.skipTo word).reaches_skipWord word).length_le
      (length_advance_lt hc (List.length_pos_iff.2 hbefore))

end VueToSan.Cursor
