import Mathlib.Data.List.Induction
import VueToSan.Source.Lines

/-!
# Lines and columns by bytes

A line index is built from characters and asked about bytes. Its answer for an offset depends on the
bytes in front of the offset alone: the line is the number of newlines among them, the column the
number of bytes behind the last newline. This holds inside characters of several bytes too, because
no byte of theirs is a newline.
-/

namespace VueToSan

open VueToSan.Text

/-! ## Newlines among bytes -/

def newlineByte : UInt8 := 10

def utf8Bytes (text : String) : List UInt8 := text.toUTF8.data.toList

theorem utf8Bytes_eq (text : String) :
    utf8Bytes text = text.toList.flatMap String.utf8EncodeChar := by
  rw [utf8Bytes, String.toUTF8_eq_toByteArray, ← String.utf8Encode_toList, List.utf8Encode,
    List.data_toByteArray]

theorem length_utf8 (cs : List Char) :
    (cs.flatMap String.utf8EncodeChar).length = byteLength cs := by
  induction cs with
  | nil => rfl
  | cons c cs ih =>
    rw [List.flatMap_cons, List.length_append, String.length_utf8EncodeChar, ih, byteLength_cons]

theorem newline_notMem_utf8 {c : Char} (hc : c ≠ '\n') :
    newlineByte ∉ String.utf8EncodeChar c := by
  have hcode : c.val.toNat ≠ 10 := fun h => hc (Char.toNat_inj.1 h)
  have hbyte : ∀ n, newlineByte = UInt8.ofNat n → n % 256 = 10 :=
    fun n h => (congrArg UInt8.toNat h).symm
  intro h
  simp only [String.utf8EncodeChar] at h
  split_ifs at h with hone htwo hthree
  all_goals simp only [List.mem_cons, List.not_mem_nil, or_false] at h
  · have := hbyte _ h
    omega
  · rcases h with h | h <;> have := hbyte _ h <;> omega
  · rcases h with h | h | h <;> have := hbyte _ h <;> omega
  · rcases h with h | h | h | h <;> have := hbyte _ h <;> omega

def newlineEnds (offset : Nat) : List UInt8 → List Nat
  | [] => []
  | b :: bs =>
    if b = newlineByte then (offset + 1) :: newlineEnds (offset + 1) bs
    else newlineEnds (offset + 1) bs

theorem newlineEnds_append (offset : Nat) (bs rest : List UInt8) :
    newlineEnds offset (bs ++ rest) =
      newlineEnds offset bs ++ newlineEnds (offset + bs.length) rest := by
  induction bs generalizing offset with
  | nil => rfl
  | cons b bs ih =>
    have hlen : offset + 1 + bs.length = offset + (b :: bs).length := by
      rw [List.length_cons]
      omega
    rw [List.cons_append, newlineEnds, newlineEnds, ih, hlen]
    split <;> rfl

theorem newlineEnds_of_notMem {offset : Nat} {bs : List UInt8} (h : newlineByte ∉ bs) :
    newlineEnds offset bs = [] := by
  induction bs generalizing offset with
  | nil => rfl
  | cons b bs ih =>
    rw [List.mem_cons, not_or] at h
    rw [newlineEnds, if_neg (Ne.symm h.1), ih h.2]

theorem startsFrom_eq (offset : Nat) (cs : List Char) :
    LineIndex.startsFrom offset cs = newlineEnds offset (cs.flatMap String.utf8EncodeChar) := by
  induction cs generalizing offset with
  | nil => rfl
  | cons c cs ih =>
    rw [List.flatMap_cons, newlineEnds_append, String.length_utf8EncodeChar, ← ih,
      LineIndex.startsFrom]
    by_cases hc : c = '\n'
    · rw [if_pos hc, hc]
      rfl
    · rw [if_neg hc, newlineEnds_of_notMem (newline_notMem_utf8 hc), List.nil_append]

theorem length_newlineEnds (offset : Nat) (bs : List UInt8) :
    (newlineEnds offset bs).length = bs.count newlineByte := by
  induction bs generalizing offset with
  | nil => rfl
  | cons b bs ih =>
    rw [newlineEnds, List.count_cons]
    by_cases hb : b = newlineByte
    · simp [hb, ih]
    · simp [hb, ih]

theorem lt_of_mem_newlineEnds {offset n : Nat} {bs : List UInt8} (h : n ∈ newlineEnds offset bs) :
    offset < n ∧ n ≤ offset + bs.length := by
  induction bs generalizing offset with
  | nil => cases h
  | cons b bs ih =>
    rw [newlineEnds] at h
    rw [List.length_cons]
    split at h
    · rcases List.mem_cons.1 h with rfl | h
      · omega
      · have := ih h
        omega
    · have := ih h
      omega

theorem pairwise_newlineEnds (offset : Nat) (bs : List UInt8) :
    (newlineEnds offset bs).Pairwise (· < ·) := by
  induction bs generalizing offset with
  | nil => exact .nil
  | cons b bs ih =>
    rw [newlineEnds]
    split
    · exact .cons (fun n hn => (lt_of_mem_newlineEnds hn).1) (ih _)
    · exact ih _

theorem countP_newlineEnds (n : Nat) (bs : List UInt8) :
    (newlineEnds 0 bs).countP (· ≤ n) = (bs.take n).count newlineByte := by
  have hfront : (newlineEnds 0 (bs.take n)).countP (· ≤ n) = (bs.take n).count newlineByte := by
    rw [← length_newlineEnds 0, List.countP_eq_length]
    intro m hm
    have := (lt_of_mem_newlineEnds hm).2
    rw [List.length_take] at this
    exact decide_eq_true (by omega)
  have hbehind : (newlineEnds (0 + (bs.take n).length) (bs.drop n)).countP (· ≤ n) = 0 := by
    rw [List.countP_eq_zero]
    intro m hm
    have hbounds := lt_of_mem_newlineEnds hm
    rw [List.length_take, List.length_drop] at hbounds
    rw [decide_eq_true_eq]
    omega
  have hsplit := newlineEnds_append 0 (bs.take n) (bs.drop n)
  rw [List.take_append_drop] at hsplit
  rw [hsplit, List.countP_append, hfront, hbehind, Nat.add_zero]

/-! ## The last line -/

structure IsLastLine (bs front line : List UInt8) : Prop where
  cut : bs = front ++ line
  ends : front = [] ∨ front.getLast? = some newlineByte
  inside : newlineByte ∉ line

theorem IsLastLine.append {bs front line more : List UInt8} (h : IsLastLine bs front line)
    (hmore : newlineByte ∉ more) : IsLastLine (bs ++ more) front (line ++ more) where
  cut := by rw [h.cut, List.append_assoc]
  ends := h.ends
  inside := by
    rw [List.mem_append, not_or]
    exact ⟨h.inside, hmore⟩

theorem exists_lastLine (bs : List UInt8) : ∃ front line, IsLastLine bs front line := by
  induction bs using List.reverseRecOn with
  | nil => exact ⟨[], [], rfl, .inl rfl, List.not_mem_nil⟩
  | append_singleton bs b ih =>
    obtain ⟨front, line, h⟩ := ih
    by_cases hb : b = newlineByte
    · refine ⟨bs ++ [b], [], (List.append_nil _).symm, .inr ?_, List.not_mem_nil⟩
      rw [List.getLast?_concat, hb]
    · exact ⟨front, line ++ [b], h.append (by simpa using Ne.symm hb)⟩

theorem IsLastLine.count {bs front line : List UInt8} (h : IsLastLine bs front line) :
    bs.count newlineByte = front.count newlineByte := by
  rw [h.cut, List.count_append, List.count_eq_zero.2 h.inside, Nat.add_zero]

theorem IsLastLine.getElem?_starts {bs front line : List UInt8}
    (h : IsLastLine bs front line) (rest : List UInt8) :
    (0 :: newlineEnds 0 (bs ++ rest))[bs.count newlineByte]? = some front.length := by
  rw [h.count, h.cut, List.append_assoc, newlineEnds_append]
  rcases h.ends with rfl | hlast
  · rfl
  · obtain ⟨front, rfl⟩ := List.getLast?_eq_some_iff.1 hlast
    have hend : newlineEnds (0 + front.length) [newlineByte] = [front.length + 1] := by
      rw [Nat.zero_add]
      rfl
    have hindex : (front ++ [newlineByte]).count newlineByte =
        (newlineEnds 0 front).length + 1 := by
      rw [length_newlineEnds, List.count_append, List.count_singleton_self]
    rw [newlineEnds_append, hend, hindex, List.getElem?_cons_succ, List.append_assoc,
      List.getElem?_append_right (Nat.le_refl _), Nat.sub_self, List.length_append]
    rfl

/-! ## The line index -/

variable {text : String} {bs front line : List UInt8} {offset : Nat}

theorem ofText_starts (text : String) :
    (LineIndex.ofText text).starts = 0 :: newlineEnds 0 (utf8Bytes text) := by
  rw [utf8Bytes_eq, ← startsFrom_eq]
  rfl

theorem ofText_length (text : String) :
    (LineIndex.ofText text).length = (utf8Bytes text).length := by
  rw [utf8Bytes_eq, length_utf8]
  rfl

def bytesBefore (text : String) (offset : Nat) : List UInt8 := (utf8Bytes text).take offset

theorem IsLastLine.starts (h : IsLastLine (bytesBefore text offset) front line) :
    (LineIndex.ofText text).starts[(bytesBefore text offset).count newlineByte]? =
      some front.length := by
  have hfound := h.getElem?_starts ((utf8Bytes text).drop offset)
  rwa [bytesBefore, List.take_append_drop, ← ofText_starts] at hfound

theorem IsLastLine.lineCol (h : IsLastLine (bytesBefore text offset) front line) :
    (LineIndex.ofText text).lineCol offset =
      ⟨(bytesBefore text offset).count newlineByte, line.length⟩ := by
  have hclamp : bytesBefore text (min offset (LineIndex.ofText text).length) =
      bytesBefore text offset := by
    rw [bytesBefore, bytesBefore, ofText_length, ← List.take_eq_take_min]
  have hcount : (LineIndex.ofText text).starts.countP
      (· ≤ min offset (LineIndex.ofText text).length) =
        (bytesBefore text offset).count newlineByte + 1 := by
    rw [ofText_starts, List.countP_cons_of_pos (by simp), countP_newlineEnds, ← hclamp]
    rfl
  have hlength : min offset (LineIndex.ofText text).length = front.length + line.length := by
    rw [← List.length_append, ← h.cut, bytesBefore, List.length_take, ofText_length]
  rw [LineIndex.lineCol]
  rw [hcount, Nat.add_sub_cancel, List.getD_eq_getElem?_getD, h.starts, Option.getD_some, hlength,
    Nat.add_sub_cancel_left]

def Position.Precedes (p q : Position) : Prop :=
  p.line < q.line ∨ p.line = q.line ∧ p.column < q.column

theorem lineCol_clamp (text : String) (offset : Nat) :
    (LineIndex.ofText text).lineCol (min offset (utf8Bytes text).length) =
      (LineIndex.ofText text).lineCol offset := by
  rw [LineIndex.lineCol, LineIndex.lineCol, ofText_length, Nat.min_assoc, Nat.min_self]

theorem position_clamp (text : String) (offset : Nat) :
    (LineIndex.ofText text).position (min offset (utf8Bytes text).length) =
      (LineIndex.ofText text).position offset := by
  rw [LineIndex.position, LineIndex.position, lineCol_clamp, ofText_length, Nat.min_assoc,
    Nat.min_self]

theorem precedes_position {x y : Nat} (hxy : x < y) (hy : y ≤ (utf8Bytes text).length) :
    ((LineIndex.ofText text).position x).Precedes ((LineIndex.ofText text).position y) := by
  obtain ⟨front, line, h⟩ := exists_lastLine (bytesBefore text x)
  obtain ⟨more, hmore, hlength⟩ :
      ∃ more, bytesBefore text y = bytesBefore text x ++ more ∧ more.length = y - x := by
    refine ⟨((utf8Bytes text).drop x).take (y - x), ?_, ?_⟩
    · rw [bytesBefore, bytesBefore, ← List.take_add, Nat.add_sub_cancel' (Nat.le_of_lt hxy)]
    · rw [List.length_take, List.length_drop]
      omega
  simp only [Position.Precedes, LineIndex.position, h.lineCol]
  by_cases hnewline : newlineByte ∈ more
  · obtain ⟨front', line', h'⟩ := exists_lastLine (bytesBefore text y)
    have hcount := List.count_pos_iff.2 hnewline
    rw [h'.lineCol, hmore, List.count_append]
    refine .inl ?_
    dsimp only
    omega
  · have h' := h.append hnewline
    rw [← hmore] at h'
    rw [h'.lineCol, hmore, List.count_append, List.count_eq_zero.2 hnewline, List.length_append]
    refine .inr ?_
    dsimp only
    omega

/-- The line of an offset is the number of newlines in front of it, and its column the number of
bytes behind the last of them, an offset past the end standing for the end. The index holds the
starts of the lines in order. Positions are in the order of their offsets, and the location of a
span has that span. Line and column together do not exceed the offset, so integers that hold the
offsets hold them. `position` counts from one: of 32 bits, its line or column is too large only
at the offset `2 ^ 32 - 1`, the end of a text of that length without a newline, or of newlines
only. -/
theorem ofText_exact (text : String) :
    (LineIndex.ofText text).starts.Pairwise (· < ·) ∧
      (∀ offset, ∃ front line,
        let o := min offset (utf8Bytes text).length
        let place := (LineIndex.ofText text).lineCol offset
        IsLastLine (bytesBefore text o) front line ∧
          place.line = (bytesBefore text o).count newlineByte ∧
          place.col = o - front.length ∧
          (LineIndex.ofText text).starts[place.line]? = some front.length ∧
          front.length + place.col = o ∧ place.line + place.col ≤ o) ∧
      (∀ x y, min x (utf8Bytes text).length < min y (utf8Bytes text).length →
        ((LineIndex.ofText text).position x).Precedes ((LineIndex.ofText text).position y)) ∧
      ∀ span : Span, span.start ≤ (utf8Bytes text).length → span.stop ≤ (utf8Bytes text).length →
        ((LineIndex.ofText text).location span).span = span := by
  refine ⟨?_, fun offset => ?_, fun x y hxy => ?_, fun span hstart hstop => ?_⟩
  · rw [ofText_starts]
    exact .cons (fun n hn => (lt_of_mem_newlineEnds hn).1) (pairwise_newlineEnds 0 _)
  · -- The bytes in front of the offset are cut behind their last newline.
    obtain ⟨front, line, h⟩ :=
      exists_lastLine (bytesBefore text (min offset (utf8Bytes text).length))
    have hlength : front.length + line.length = min offset (utf8Bytes text).length := by
      rw [← List.length_append, ← h.cut, bytesBefore, List.length_take]
      omega
    have hcount : front.count newlineByte ≤ front.length := List.count_le_length
    have hplace := h.lineCol
    rw [lineCol_clamp] at hplace
    refine ⟨front, line, ?_⟩
    dsimp only
    rw [hplace]
    refine ⟨h, rfl, ?_, h.starts, hlength, ?_⟩
    · dsimp only
      omega
    · rw [h.count]
      dsimp only
      omega
  · rw [← position_clamp text x, ← position_clamp text y]
    exact precedes_position hxy (Nat.min_le_right _ _)
  · rw [Location.span, LineIndex.location, LineIndex.position, LineIndex.position, ofText_length,
      Nat.min_eq_left hstart, Nat.min_eq_left hstop]

end VueToSan
