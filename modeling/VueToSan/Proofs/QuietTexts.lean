import VueToSan.Proofs.AttributeValues
import Mathlib.Data.List.Chain

/-!
# Texts without braces and markup

Whether San accepts a text or a fixed value depends on which characters stand side by side in it.
A fixed value without `{{` and `{=` is accepted as it is written, and a text without `{{` and
without markup is read to its end.
-/

namespace VueToSan.Markup

open VueToSan.Text VueToSan.San

def Flat (cs : List Char) : Prop := cs.IsChain fun c d => c = '{' → d ≠ '{'

/-- Neither an interpolation nor a two-way binding starts in a text. -/
def Unbraced (cs : List Char) : Prop := cs.IsChain fun c d => c = '{' → d ≠ '{' ∧ d ≠ '='

def Quiet (cs : List Char) : Prop :=
  cs.IsChain fun c d => (c = '{' → d ≠ '{') ∧ atMarkup [c, d] = false

variable {cs : List Char}

instance : Decidable (Unbraced cs) := inferInstanceAs (Decidable (List.IsChain _ cs))

instance : Decidable (Quiet cs) := inferInstanceAs (Decidable (List.IsChain _ cs))

theorem Unbraced.flat (h : Unbraced cs) : Flat cs := h.imp fun _ _ hpair hc => (hpair hc).1

theorem Flat.part {part : List Char} (h : Flat cs) (hpart : part <:+: cs) : Flat part :=
  List.IsChain.infix h hpart

theorem Unbraced.part {part : List Char} (h : Unbraced cs) (hpart : part <:+: cs) :
    Unbraced part := List.IsChain.infix h hpart

theorem Quiet.part {part : List Char} (h : Quiet cs) (hpart : part <:+: cs) : Quiet part :=
  List.IsChain.infix h hpart

theorem Quiet.flat (h : Quiet cs) : Flat cs := h.imp fun _ _ hpair => hpair.1

/-! ## Fixed values -/

theorem unbraced_collapseFrom (h : Unbraced cs) (inRun : Bool) :
    Unbraced (collapseFrom inRun cs) := by
  induction cs generalizing inRun with
  | nil => exact .nil
  | cons c cs ih =>
    obtain ⟨hnext, h⟩ := List.isChain_cons.1 h
    rw [collapseFrom]
    split
    · split
      · exact ih h true
      · exact List.isChain_cons.2 ⟨by simp, ih h true⟩
    · refine List.isChain_cons.2 ⟨fun d hd hc => ?_, ih h false⟩
      rcases head?_collapse hd with rfl | hd
      · decide
      · exact hnext d hd hc

theorem head?_unescaped {d : Char} (hd : d ∈ (unescaped cs).head?) :
    d = '\x22' ∨ d ∈ cs.head? := by
  cases cs with
  | nil => cases hd
  | cons c cs =>
    rw [unescaped, replace, replaceFrom] at hd
    split at hd
    · exact .inl (by simpa using hd.symm)
    · exact .inr hd

theorem unbraced_unescaped (h : Unbraced cs) : Unbraced (unescaped cs) := by
  have hskip (skip : Nat) :
      Unbraced (replaceFrom "&quot;".toList ['\x22'] skip cs) := by
    induction cs generalizing skip with
    | nil => exact .nil
    | cons c cs ih =>
      obtain ⟨hnext, h⟩ := List.isChain_cons.1 h
      cases skip with
      | succ skip => exact ih h skip
      | zero =>
        rw [replaceFrom]
        split
        · exact List.isChain_cons.2 ⟨by simp, ih h _⟩
        · refine List.isChain_cons.2 ⟨fun d hd hc => ?_, ih h 0⟩
          rcases head?_unescaped hd with rfl | hd
          · decide
          · exact hnext d hd hc
  exact hskip 0

theorem unbraced_kept {name value tag : String} (h : Unbraced value.toList)
    (hcs : cs ∈ keptValue? name value tag) : Unbraced (unescaped cs) := by
  unfold keptValue? at hcs
  split at hcs
  · cases hcs
  · split at hcs
    · rename_i hbraces
      obtain ⟨rest, hrest⟩ := List.isPrefixOf_iff_prefix.1 hbraces
      rw [← hrest] at h
      exact absurd rfl ((List.isChain_cons_cons.1 h).1 rfl).1
    · obtain rfl := Option.some.inj hcs
      exact unbraced_unescaped (unbraced_collapseFrom h false)

theorem segmentsFrom_flat (h : Flat cs) (span : Span) (seen : List Char) :
    segmentsFrom span 0 seen cs = .ok (literalSegment (seen.reverse ++ cs)) := by
  induction cs generalizing seen with
  | nil => simp [segmentsFrom]
  | cons c cs ih =>
    obtain ⟨hnext, h⟩ := List.isChain_cons.1 h
    rw [segmentsFrom]
    · rw [ih h]
      simp
    · rintro cs' rfl rfl
      exact hnext '{' rfl rfl rfl

theorem Flat.acceptsText (h : Flat cs) : acceptsText cs := by
  simp only [Markup.acceptsText, San.readText, segmentsFrom_flat h]
  rfl

theorem dropEndWhile_dropWhile_part (p : Char → Bool) (cs : List Char) :
    dropEndWhile p (cs.dropWhile p) <:+: cs := by
  rw [dropEndWhile, ← List.reverse_infix, List.reverse_reverse]
  exact (List.dropWhile_suffix p).isInfix.trans
    ( List.reverse_infix.2 (List.dropWhile_suffix p).isInfix)

theorem trim_part (cs : List Char) : trim cs <:+: cs := dropEndWhile_dropWhile_part isBlank cs

theorem twoWayCode?_unbraced (h : Unbraced cs) : twoWayCode? (String.ofList cs) = none := by
  have hpairs := h.part (trim_part cs)
  rw [twoWayCode?, String.toList_ofList]
  split
  · rename_i rest heq
    rw [heq] at hpairs
    exact absurd rfl ((List.isChain_cons_cons.1 hpairs).1 rfl).2
  · rfl

def IsFixed (raw : String) : Prop := acceptsText raw.toList ∧ twoWayCode? raw = none

theorem Unbraced.isFixed (h : Unbraced cs) : IsFixed (String.ofList cs) :=
  ⟨by simpa using h.flat.acceptsText, twoWayCode?_unbraced h⟩

/-- Names of fixed attributes; only the one that names an element is a directive. -/
structure IsFixedName (name : String) : Prop where
  event : stripStart? "on-".toList name.toList = none
  directive : stripStart? "s-".toList name.toList = none ∨ name = "s-ref"

theorem IsFixedName.acceptsAttr {name : String} {value : Option String} (hname : IsFixedName name)
    (hvalue : ∀ raw ∈ value, IsFixed raw) : acceptsAttr name value := by
  rcases hname.directive with hdirective | rfl
  · simp only [Markup.acceptsAttr, Head.apply, hname.event, hdirective]
    cases value with
    | none => rfl
    | some raw =>
      obtain ⟨htext, hcode⟩ := hvalue raw rfl
      obtain ⟨text, htext⟩ := Option.isSome_iff_exists.1 htext
      simp [readProperty, hcode, toOption_eq_some.1 htext]
  · have htext : Markup.acceptsText (value.getD "").toList := by
      cases value with
      | none => decide
      | some raw => exact (hvalue raw rfl).1
    obtain ⟨text, htext⟩ := Option.isSome_iff_exists.1 htext
    have hstrip : stripStart? "on-".toList "s-ref".toList = none ∧
        stripStart? "s-".toList "s-ref".toList = some "ref".toList := by decide
    simp only [Markup.acceptsAttr, Head.apply, hstrip, String.ofList_toList, readDirective,
      toOption_eq_some.1 htext]
    rfl

/-! ## Texts -/

theorem atMarkup_cons (c : Char) (cs : List Char) :
    atMarkup (c :: cs) = (cs.head?.map fun d => atMarkup [c, d]).getD false := by
  by_cases hc : c = '<'
  · subst hc
    cases cs <;> rfl
  · cases cs <;> simp [atMarkup, hc]

theorem Quiet.isCalm (h : Quiet cs) : isCalm false cs := by
  induction cs with
  | nil => rfl
  | cons c cs ih =>
    obtain ⟨hnext, h⟩ := List.isChain_cons.1 h
    have hmarkup : atMarkup (c :: cs) = false := by
      rw [atMarkup_cons]
      cases cs with
      | nil => rfl
      | cons d cs => exact (hnext d rfl).2
    rw [Markup.isCalm, hmarkup, ih h]
    · rfl
    · rintro cs' - rfl rfl
      exact (hnext '{' rfl).1 rfl rfl
    · rintro cs' ⟨⟩

theorem quiet_textRun (h : Flat cs) : Quiet (textRun false cs) := by
  induction cs with
  | nil => exact .nil
  | cons c cs ih =>
    obtain ⟨hnext, h⟩ := List.isChain_cons.1 h
    by_cases hclose : c = '}'
    · rw [textRun_idle hclose]
      exact List.isChain_cons.2 ⟨by simp [hclose, atMarkup], ih h⟩
    rw [textRun_cons (fun hopen => hnext '{' hopen.2 hopen.1 rfl) (fun hpair => hclose hpair.1)]
    split
    · exact .nil
    · rename_i hmarkup
      refine List.isChain_cons.2 ⟨fun d hd => ?_, ih h⟩
      -- The next character of the text is the next one of the source.
      obtain ⟨run, hrun⟩ := List.head?_eq_some_iff.1 hd
      obtain ⟨rest, rfl⟩ : ∃ rest, cs = d :: rest := by
        obtain ⟨tail, htail⟩ := textRun_begins false cs
        exact ⟨run ++ tail, by rw [← htail, hrun]; rfl⟩
      refine ⟨fun hc => hnext d rfl hc, ?_⟩
      rw [atMarkup_cons] at hmarkup
      simpa using hmarkup

end VueToSan.Markup
