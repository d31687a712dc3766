import Mathlib.Data.List.TakeWhile
import VueToSan.Proofs.AttributeValues

/-!
# Reading back one written attribute

A round of the attribute loop on an attribute that was written reads its name and the value it
stands for, and stops in front of what follows. Nothing inside the value ends the attribute: the
quotes in it are escaped, and the other characters have no meaning between quotes.
-/

namespace VueToSan.Text

/-! ## Maximal runs of blanks -/

/-- The second text is the first one with one space for every maximal run of blanks. -/
inductive Collapsed : List Char → List Char → Prop
  | nil : Collapsed [] []
  | visible {c : Char} {cs ds : List Char} : isBlank c = false → Collapsed cs ds →
      Collapsed (c :: cs) (c :: ds)
  | run {blanks cs ds : List Char} : blanks ≠ [] → (∀ c ∈ blanks, isBlank c = true) →
      (∀ c ∈ cs.head?, isBlank c = false) → Collapsed cs ds →
      Collapsed (blanks ++ cs) (' ' :: ds)

theorem collapseFrom_run {blanks cs : List Char} (hblank : ∀ c ∈ blanks, isBlank c = true)
    (hstop : ∀ c ∈ cs.head?, isBlank c = false) :
    collapseFrom true (blanks ++ cs) = collapse cs := by
  induction blanks with
  | nil => exact collapseFrom_visible hstop true
  | cons c blanks ih =>
    rw [List.forall_mem_cons] at hblank
    rw [List.cons_append, collapseFrom, if_pos hblank.1, if_pos rfl, ih hblank.2]

theorem Collapsed.eq_collapse {cs ds : List Char} (h : Collapsed cs ds) : ds = collapse cs := by
  induction h with
  | nil => rfl
  | visible hc h ih => simp [collapse, collapseFrom, hc, ih]
  | @run blanks cs ds hne hblank hstop h ih =>
    obtain ⟨c, blanks, rfl⟩ := List.exists_cons_of_ne_nil hne
    rw [List.forall_mem_cons] at hblank
    rw [collapse, List.cons_append, collapseFrom, if_pos hblank.1, if_neg Bool.false_ne_true,
      collapseFrom_run hblank.2 hstop, ih]

theorem collapsed_collapse (cs : List Char) : Collapsed cs (collapse cs) := by
  induction hn : cs.length using Nat.strongRecOn generalizing cs with
  | _ n ih =>
    cases cs with
    | nil => exact .nil
    | cons c cs =>
      rw [List.length_cons] at hn
      by_cases hc : isBlank c = true
      · -- The run goes up to the first visible character.
        have hrun : ∀ d ∈ c :: cs.takeWhile isBlank, isBlank d = true := by
          rw [List.forall_mem_cons]
          exact ⟨hc, fun d hd => List.mem_takeWhile_imp hd⟩
        have hstop : ∀ d ∈ (cs.dropWhile isBlank).head?, isBlank d = false := by
          intro d hd
          have := List.head?_dropWhile_not isBlank cs
          simp_all
        have hlen := List.length_dropWhile_le isBlank cs
        have htail := Collapsed.run (List.cons_ne_nil _ _) hrun hstop
          (ih (cs.dropWhile isBlank).length (by omega) _ rfl)
        rw [List.cons_append, List.takeWhile_append_dropWhile] at htail
        rwa [← htail.eq_collapse]
      · rw [Bool.not_eq_true] at hc
        have hcons := Collapsed.visible hc (ih cs.length (by omega) cs rfl)
        rwa [← hcons.eq_collapse]

example : collapse " a\t\n b ".toList = " a b ".toList := by decide

/-! ## Words without blanks -/

section Words

variable {word cs ds : List Char}

theorem Collapsed.prefix_of_visible (h : Collapsed cs ds) (hword : ∀ c ∈ word, isBlank c = false)
    (hpre : word <+: ds) : word <+: cs := by
  induction h generalizing word with
  | nil => exact hpre
  | @visible c cs ds hc h ih =>
    cases word with
    | nil => exact List.nil_prefix
    | cons w word =>
      rw [List.forall_mem_cons] at hword
      rw [List.cons_prefix_cons] at hpre ⊢
      exact ⟨hpre.1, ih hword.2 hpre.2⟩
  | run hne hblank hstop h ih =>
    -- The word would start with the space that stands for the run.
    have hspace : ' ' ∉ word := fun hmem => Bool.noConfusion (hword ' ' hmem)
    have hnil := Expr.prefix_of_not_mem (a := []) hspace hpre
    rw [List.prefix_nil.1 hnil]
    exact List.nil_prefix

theorem Collapsed.infix_of_visible (h : Collapsed cs ds) (hword : ∀ c ∈ word, isBlank c = false)
    (hin : word <:+: ds) : word <:+: cs := by
  induction h with
  | nil => exact hin
  | visible hc h ih =>
    rcases List.infix_cons_iff.1 hin with hpre | hin
    · exact ((Collapsed.visible hc h).prefix_of_visible hword hpre).isInfix
    · exact List.infix_cons (ih hin)
  | run hne hblank hstop h ih =>
    rcases List.infix_cons_iff.1 hin with hpre | hin
    · exact ((Collapsed.run hne hblank hstop h).prefix_of_visible hword hpre).isInfix
    · exact (ih hin).trans (List.suffix_append _ _).isInfix

end Words

end VueToSan.Text

namespace VueToSan.San

open VueToSan.Text VueToSan.Markup

/-! ## What is written -/

theorem keptValue?_eq (name value tag : String) :
    keptValue? name value tag =
      if isValueless name || (value.isEmpty && isPresence tag name) then none
      else some (writtenValue value) := by
  rw [keptValue?, writtenValue, apply_ite some]

theorem writeAttr_eq_name {name value tag : String} :
    writeAttr name value tag = name ↔ keptValue? name value tag = none := by
  rw [← String.toList_inj, writeAttr_toList]
  cases keptValue? name value tag with
  | none => simp [markText]
  | some cs => simp [markText]

theorem unescaped_writtenValue {value : String} (h : ¬entity <:+: value.toList) :
    unescaped (writtenValue value) = writtenValue value := by
  refine Expr.replaceFrom_of_not_infix fun hin => h ?_
  rw [writtenValue] at hin
  split at hin
  · exact hin
  · exact (collapsed_collapse value.toList).infix_of_visible (forall_of_all (by decide)) hin

/-- What an attribute is to be read as: nothing but the name when only the name is written, the
value as it stands when it starts with an interpolation, the value with its blanks collapsed
otherwise. -/
def IsMeant (name value tag : String) : Option String → Prop
  | none => writeAttr name value tag = name
  | some read => writeAttr name value tag ≠ name ∧
      if ['{', '{'] <+: value.toList then read = value else Collapsed value.toList read.toList

theorem meant_writtenValue (value : String) :
    if ['{', '{'] <+: value.toList then String.ofList (writtenValue value) = value
    else Collapsed value.toList (String.ofList (writtenValue value)).toList := by
  rw [writtenValue]
  by_cases hbraces : ['{', '{'] <+: value.toList
  · rw [if_pos hbraces, if_pos (List.isPrefixOf_iff_prefix.2 hbraces), String.ofList_toList]
  · rw [if_neg hbraces, if_neg (mt List.isPrefixOf_iff_prefix.1 hbraces), String.toList_ofList]
    exact collapsed_collapse value.toList

theorem isMeant_markMeaning (name tag : String) {value : String}
    (h : ¬entity <:+: value.toList) :
    IsMeant name value tag (markMeaning (name, keptValue? name value tag)).2 := by
  have hbare : writeAttr name value tag = name ↔ keptValue? name value tag = none :=
    writeAttr_eq_name
  rw [keptValue?_eq] at hbare ⊢
  by_cases hpresent : (isValueless name || (value.isEmpty && isPresence tag name)) = true
  · rw [if_pos hpresent] at hbare ⊢
    exact hbare.2 rfl
  · rw [if_neg hpresent] at hbare ⊢
    have hread : (markMeaning (name, some (writtenValue value))).2 =
        some (String.ofList (writtenValue value)) := by
      rw [markMeaning, Option.map_some, unescaped_writtenValue h]
    rw [hread]
    exact ⟨fun hname => Option.some_ne_none _ (hbare.1 hname), meant_writtenValue value⟩

/-! ## The round -/

/-- What may stand behind an attribute in a tag: the end of the tag, or a blank with a visible
character behind it that does not start a value. -/
inductive GoesOn : List Char → Prop
  | close (tail : List Char) : GoesOn ('>' :: tail)
  | next {c : Char} (tail : List Char) : isBlank c = false → c ≠ '=' → GoesOn (' ' :: c :: tail)

theorem GoesOn.skipWhile {rest : List Char} (h : GoesOn rest) (pos : Nat) :
    ∃ next, (Cursor.mk pos rest).skipWhile isBlank = next ∧ next.startsWith "=" = false ∧
      (next.rest = rest ∨ rest = ' ' :: next.rest) := by
  cases h with
  | close tail =>
    refine ⟨_, Cursor.skipWhile_stop pos (by simp; decide), ?_, .inl rfl⟩
    simp [Cursor.startsWith, List.isPrefixOf]
  | @next c tail hc hne =>
    have hskip : (Cursor.mk pos (' ' :: c :: tail)).skipWhile isBlank =
        ⟨pos + byteLength [' '], c :: tail⟩ :=
      Cursor.skipWhile_append pos [' '] (forall_of_all (by decide)) (by simpa using hc)
    refine ⟨_, hskip, ?_, .inr rfl⟩
    simp [Cursor.startsWith, List.isPrefixOf, hne.symm]

theorem GoesOn.behind {rest : List Char} (h : GoesOn rest) : Behind rest := by
  refine ⟨?_, fun pos => ?_⟩
  · cases h <;> simp <;> decide
  · obtain ⟨next, hskip, hequals, -⟩ := h.skipWhile pos
    rw [hskip, hequals]

theorem GoesOn.rest_markStop {rest : List Char} (h : GoesOn rest)
    (m : String × Option (List Char)) (pos : Nat) :
    (markStop m ⟨pos, rest⟩).rest = rest ∨ rest = ' ' :: (markStop m ⟨pos, rest⟩).rest := by
  rw [markStop]
  split
  · obtain ⟨next, rfl, -, hnext⟩ := h.skipWhile pos
    exact hnext
  · exact .inl rfl

theorem reaches_markStop (m : String × Option (List Char)) (c : Cursor) :
    c.Reaches (markStop m c) := by
  rw [markStop]
  split
  · exact c.reaches_skipWhile isBlank
  · exact .refl c

/-- One round of the attribute loop on an attribute that was written: it reads the name and what
the attribute is meant as, and leaves what stands behind it, a blank aside. -/
theorem readAttrs_writeAttr {name value : String} {rest : List Char} (hname : isAttrName name)
    (hvalue : ¬entity <:+: value.toList) (hrest : GoesOn rest) (tag : String) (n : Nat) (h : Head)
    (pos : Nat) :
    ∃ read stop, IsMeant name value tag read ∧
      readAttr ⟨pos, (writeAttr name value tag).toList ++ rest⟩ = (name, read, stop) ∧
      readAttrs (n + 1) h ⟨pos, (writeAttr name value tag).toList ++ rest⟩ =
        (h.apply name read (stop.spanFrom pos) >>= fun h' => readAttrs n h' stop) ∧
      (Cursor.mk pos ((writeAttr name value tag).toList ++ rest)).Reaches stop ∧
      (stop.rest = rest ∨ rest = ' ' :: stop.rest) := by
  rw [writeAttr_toList]
  have hread := readAttr_markText (m := (name, keptValue? name value tag)) hname pos hrest.behind
  have hround := readAttrs_markText (m := (name, keptValue? name value tag)) hname h n pos
    hrest.behind
  have htext : (Cursor.mk pos (markText (name, keptValue? name value tag) ++ rest)).Reaches
      ⟨pos + byteLength (markText (name, keptValue? name value tag)), rest⟩ := ⟨_, rfl, rfl⟩
  exact ⟨_, _, isMeant_markMeaning name tag hvalue, hread, hround,
    htext.trans (reaches_markStop _ _), hrest.rest_markStop _ _⟩

theorem readAttrs_writeAttr_quotes :
    ∃ read stop, IsMeant "title" "a &quo\"t;\n > b=" "div" read ∧
      readAttr ⟨0, (writeAttr "title" "a &quo\"t;\n > b=" "div").toList ++ " id>".toList⟩ =
        ("title", read, stop) ∧
      readAttrs 1 { tag := "div" }
          ⟨0, (writeAttr "title" "a &quo\"t;\n > b=" "div").toList ++ " id>".toList⟩ =
        (({ tag := "div" } : Head).apply "title" read (stop.spanFrom 0) >>= fun h' =>
          readAttrs 0 h' stop) ∧
      (Cursor.mk 0 ((writeAttr "title" "a &quo\"t;\n > b=" "div").toList ++ " id>".toList)).Reaches
        stop ∧
      (stop.rest = " id>".toList ∨ " id>".toList = ' ' :: stop.rest) :=
  readAttrs_writeAttr (by decide) (by decide) (.next _ (by decide) (by decide)) "div" 0
    { tag := "div" } 0

end VueToSan.San
