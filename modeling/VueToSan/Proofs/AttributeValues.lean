import VueToSan.Proofs.CodeEdges
import VueToSan.Proofs.MarkupPieces

/-!
# Attribute values that are read back

A value is written with its blanks collapsed, unless it starts with an interpolation, and read with
`&quot;` turned into a double quote. A text that neither of the two changes stands in what is read
wherever it stood in the value.
-/

namespace VueToSan.Text

/-! ## Collapsing parts -/

theorem collapseFrom_append (inRun : Bool) (a b : List Char) :
    collapseFrom inRun (a ++ b) =
      collapseFrom inRun a ++ collapseFrom ((a.getLast?.map isBlank).getD inRun) b := by
  induction a generalizing inRun with
  | nil => rfl
  | cons c a ih =>
    have hlast : ∀ r, (((c :: a).getLast?.map isBlank).getD r) =
        ((a.getLast?.map isBlank).getD (isBlank c)) := by
      intro r
      rw [List.getLast?_cons]
      cases a.getLast? <;> rfl
    rw [hlast, List.cons_append, collapseFrom, collapseFrom]
    cases hc : isBlank c with
    | false => simp [ih]
    | true => cases inRun <;> simp [ih]

theorem collapseFrom_visible {cs : List Char} (h : ∀ c ∈ cs.head?, isBlank c = false)
    (inRun : Bool) : collapseFrom inRun cs = collapse cs := by
  cases cs with
  | nil => rfl
  | cons c cs =>
    have hc : isBlank c = false := h c rfl
    simp [collapse, collapseFrom, hc]

theorem collapse_append {a b : List Char}
    (h : (∀ c ∈ a.getLast?, isBlank c = false) ∨ ∀ c ∈ b.head?, isBlank c = false) :
    collapse (a ++ b) = collapse a ++ collapse b := by
  rw [collapse, collapseFrom_append]
  rcases h with ha | hb
  · cases hlast : a.getLast? with
    | none => rfl
    | some c =>
      rw [Option.map_some, Option.getD_some, ha c hlast]
      rfl
  · rw [collapseFrom_visible hb]
    rfl

theorem collapse_ne_nil {cs : List Char} (h : cs ≠ []) : collapse cs ≠ [] := by
  obtain ⟨c, cs, rfl⟩ := List.exists_cons_of_ne_nil h
  rw [collapse, collapseFrom]
  split <;> simp

theorem head?_collapse {cs : List Char} {x : Char} (h : (collapse cs).head? = some x) :
    x = ' ' ∨ cs.head? = some x := by
  cases cs with
  | nil => cases h
  | cons c cs =>
    rw [collapse, collapseFrom] at h
    split at h
    · exact .inl (by simpa using h.symm)
    · exact .inr h

theorem getLast?_collapseFrom {cs : List Char} {inRun : Bool} {x : Char}
    (h : (collapseFrom inRun cs).getLast? = some x) : x = ' ' ∨ cs.getLast? = some x := by
  induction cs generalizing inRun with
  | nil => cases h
  | cons c cs ih =>
    have hrest : ∀ r, (collapseFrom r cs).getLast? = some x →
        x = ' ' ∨ (c :: cs).getLast? = some x := by
      intro r hr
      refine (ih hr).imp id fun hcs => ?_
      rw [List.getLast?_cons, hcs, Option.getD_some]
    rw [collapseFrom] at h
    split_ifs at h with hblank hrun
    · exact hrest true h
    · rw [List.getLast?_cons] at h
      cases hlast : (collapseFrom true cs).getLast? with
      | none => exact .inl (by simpa [hlast] using h.symm)
      | some y => exact hrest true (by simpa [hlast] using h)
    · rw [List.getLast?_cons] at h
      cases hlast : (collapseFrom false cs).getLast? with
      | none =>
        obtain rfl : cs = [] := by
          by_contra hne
          exact collapse_ne_nil hne (List.getLast?_eq_none_iff.1 hlast)
        exact .inr (by simpa [hlast] using h)
      | some y => exact hrest false (by simpa [hlast] using h)

/-! ## Replacing in parts -/

theorem replaceFrom_append_cons {word new b : List Char} {c : Char} (hword : word ≠ [])
    (hc : c ∉ word) (skip : Nat) (a : List Char) (hskip : skip ≤ a.length) :
    replaceFrom word new skip (a ++ c :: b) =
      replaceFrom word new skip a ++ c :: replaceFrom word new 0 b := by
  induction a generalizing skip with
  | nil =>
    obtain rfl : skip = 0 := by simpa using hskip
    have hpre : word.isPrefixOf (c :: b) = false := by
      rw [Bool.eq_false_iff]
      intro hpre
      have hnil := Expr.prefix_of_not_mem (a := []) hc (List.isPrefixOf_iff_prefix.1 hpre)
      exact hword (List.prefix_nil.1 hnil)
    simp [replaceFrom, hpre]
  | cons d a ih =>
    rw [List.cons_append]
    cases skip with
    | succ n =>
      rw [replaceFrom, replaceFrom]
      exact ih n (by simpa using hskip)
    | zero =>
      -- The word does not go over `c`, so what stands behind `c` does not matter.
      have hsame : word.isPrefixOf (d :: (a ++ c :: b)) = word.isPrefixOf (d :: a) := by
        rw [Bool.eq_iff_iff, List.isPrefixOf_iff_prefix, List.isPrefixOf_iff_prefix]
        refine ⟨Expr.prefix_of_not_mem (a := d :: a) hc, fun hpre => ?_⟩
        exact hpre.trans (List.prefix_append (d :: a) (c :: b))
      rw [replaceFrom, replaceFrom, hsame]
      split
      · rename_i hpre
        have hlen := (List.isPrefixOf_iff_prefix.1 hpre).length_le
        rw [List.length_cons] at hlen
        rw [ih _ (by omega), List.append_assoc]
      · rw [ih 0 (by omega), List.cons_append]

theorem replace_append_cons {word new : List Char} {c : Char} (hword : word ≠ []) (hc : c ∉ word)
    (a b : List Char) :
    replace word new (a ++ c :: b) = replace word new a ++ c :: replace word new b :=
  replaceFrom_append_cons hword hc 0 a (by omega)

theorem replace_append {word new a b : List Char} (hword : word ≠ [])
    (h : (∀ c ∈ a.getLast?, c ∉ word) ∨ ∀ c ∈ b.head?, c ∉ word) :
    replace word new (a ++ b) = replace word new a ++ replace word new b := by
  rcases h with ha | hb
  · rcases List.eq_nil_or_concat a with rfl | ⟨a, c, rfl⟩
    · rfl
    · have hc : c ∉ word := ha c (by simp)
      rw [List.concat_eq_append, List.append_assoc, List.singleton_append,
        replace_append_cons hword hc, replace_append_cons hword hc, List.append_assoc]
      rfl
  · cases b with
    | nil =>
      rw [List.append_nil]
      exact (List.append_nil _).symm
    | cons c b =>
      have hc : c ∉ word := hb c rfl
      have hcons : replace word new (c :: b) = c :: replace word new b :=
        replace_append_cons hword hc [] b
      rw [replace_append_cons hword hc, hcons]

end VueToSan.Text

namespace VueToSan.San

open VueToSan.Text VueToSan.Markup

/-! ## Verbatim texts -/

def entity : List Char := "&quot;".toList

theorem entity_ne_nil : entity ≠ [] := by
  decide

theorem unescaped_append {a b : List Char}
    (h : (∀ c ∈ a.getLast?, c ∉ entity) ∨ ∀ c ∈ b.head?, c ∉ entity) :
    unescaped (a ++ b) = unescaped a ++ unescaped b :=
  replace_append entity_ne_nil h

structure Verbatim (cs : List Char) : Prop where
  blanks : collapse cs = cs
  quotes : unescaped cs = cs

instance (cs : List Char) : Decidable (Verbatim cs) :=
  decidable_of_iff (collapse cs = cs ∧ unescaped cs = cs)
    ⟨fun h => ⟨h.1, h.2⟩, fun h => ⟨h.blanks, h.quotes⟩⟩

theorem Verbatim.append {a b : List Char} (ha : Verbatim a) (hb : Verbatim b)
    (hblank : (∀ c ∈ a.getLast?, isBlank c = false) ∨ ∀ c ∈ b.head?, isBlank c = false)
    (hentity : (∀ c ∈ a.getLast?, c ∉ entity) ∨ ∀ c ∈ b.head?, c ∉ entity) :
    Verbatim (a ++ b) := by
  refine ⟨?_, ?_⟩
  · rw [collapse_append hblank, ha.blanks, hb.blanks]
  · rw [unescaped_append hentity, ha.quotes, hb.quotes]

theorem verbatim_of_visible {cs : List Char} (h : ∀ c ∈ cs, isBlank c = false ∧ c ≠ '&') :
    Verbatim cs := by
  refine ⟨?_, ?_⟩
  · induction cs with
    | nil => rfl
    | cons c cs ih =>
      rw [List.forall_mem_cons] at h
      rw [collapse, collapseFrom, if_neg (by simp [h.1.1])]
      exact congrArg (c :: ·) (ih h.2)
  · refine Expr.replaceFrom_of_not_infix fun hin => ?_
    exact (h '&' (hin.subset (by decide))).2 rfl

theorem Verbatim.infix_read {a cs b value : List Char} (h : Verbatim cs) (hcs : Framed cs)
    (ha : ∀ c ∈ a.getLast?, c ∉ entity) (hb : ∀ c ∈ b.head?, c ∉ entity)
    (hvalue : value = a ++ (cs ++ b) ∨ value = collapse (a ++ (cs ++ b))) :
    cs <:+: unescaped value := by
  have haround : ∀ x y, (∀ c ∈ x.getLast?, c ∉ entity) → (∀ c ∈ y.head?, c ∉ entity) →
      cs <:+: unescaped (x ++ (cs ++ y)) := by
    intro x y hx hy
    rw [unescaped_append (.inl hx), unescaped_append (.inr hy), h.quotes, ← List.append_assoc]
    exact List.infix_append _ _ _
  rcases hvalue with rfl | rfl
  · exact haround a b ha hb
  · have hspace : ' ' ∉ entity := by decide
    rw [collapse_append (.inr (hcs.first_visible b)), collapse_append (.inl hcs.last_visible),
      h.blanks]
    apply haround
    · intro c hc
      rcases getLast?_collapseFrom hc with rfl | hc
      · exact hspace
      · exact ha c hc
    · intro c hc
      rcases head?_collapse hc with rfl | hc
      · exact hspace
      · exact hb c hc

/-! ## Written attributes -/

/-- The value that an attribute is written with, before quotes are escaped. -/
def writtenValue (value : String) : List Char :=
  if ['{', '{'].isPrefixOf value.toList then value.toList else collapse value.toList

theorem writtenValue_of_verbatim {value : String} (h : Verbatim value.toList) :
    writtenValue value = value.toList := by
  rw [writtenValue, h.blanks, ite_self]

theorem readAttr_writeAttr {name value : String} (hname : isAttrName name)
    (hvalueless : isValueless name = false) (hempty : value = "" → isBooleanAttr name = false)
    (tag : String) (pos : Nat) {rest : List Char} (hrest : Behind rest) :
    ∃ stop, readAttr ⟨pos, (writeAttr name value tag).toList ++ rest⟩ =
      (name, some (String.ofList (unescaped (writtenValue value))), stop) := by
  have hpresent : (value.isEmpty && isPresence tag name) = false := by
    by_cases hvalue : value = ""
    · rw [isPresence, hempty hvalue, Bool.and_false, Bool.and_false]
    · simp [hvalue]
  have hkept : keptValue? name value tag = some (writtenValue value) := by
    rw [keptValue?, hvalueless, hpresent, Bool.or_false, if_neg Bool.false_ne_true, writtenValue,
      apply_ite some]
  have hread := readAttr_markText (m := (name, keptValue? name value tag)) hname pos hrest
  rw [writeAttr_toList, hread, hkept]
  exact ⟨_, rfl⟩

end VueToSan.San
