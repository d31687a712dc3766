import VueToSan.Proofs.EntryLookup
import VueToSan.Proofs.MarkupPieces
import VueToSan.Proofs.WalkInvariant
import VueToSan.Transform.Builtin

/-!
# Structural directives of walked templates

Tests and loops are written as `s-if`, `s-else-if`, `s-else` and `s-for`. The rules that run after
that rename, merge and drop other attributes only, so every element keeps what was written. There
is one exception: a transition hands all its attributes to its first element, and with them those of
its own test and loop.
-/

namespace VueToSan.Markup

open VueToSan.Text VueToSan.Transform

/-! ## What a rule carries over -/

def structuralAttrs : List String := ["s-if", "s-else-if", "s-else", "s-for"]

theorem not_structural {name : String} (h : name.toList.head? ≠ some 's') :
    name ∉ structuralAttrs := by
  intro hmem
  have hhead : ∀ s ∈ structuralAttrs, s.toList.head? = some 's' := by decide
  exact h (hhead name hmem)

structure Head.SameDirectives (h h' : Head) : Prop where
  ifTest : h'.ifTest = h.ifTest
  elseIfTest : h'.elseIfTest = h.elseIfTest
  hasElse : h'.hasElse = h.hasElse
  loop : h'.loop = h.loop

/-- A later head of an element: tag, tests and loop are the same, and no structural attribute was
lost. -/
structure Head.Carries (h h' : Head) : Prop extends h.SameDirectives h' where
  tag : h'.tag = h.tag
  rawNames : h'.directives.map (·.rawName) = h.directives.map (·.rawName)
  attrs : ∀ name ∈ structuralAttrs, h.hasAttr name → h'.hasAttr name

namespace Head.Carries

variable {h h' h'' : Head} {name old new value : String}

theorem refl (h : Head) : h.Carries h := ⟨⟨rfl, rfl, rfl, rfl⟩, rfl, rfl, fun _ _ => id⟩

theorem trans (hc : h.Carries h') (hc' : h'.Carries h'') : h.Carries h'' where
  ifTest := hc'.ifTest.trans hc.ifTest
  elseIfTest := hc'.elseIfTest.trans hc.elseIfTest
  hasElse := hc'.hasElse.trans hc.hasElse
  loop := hc'.loop.trans hc.loop
  tag := hc'.tag.trans hc.tag
  rawNames := hc'.rawNames.trans hc.rawNames
  attrs name hname hattr := hc'.attrs name hname (hc.attrs name hname hattr)

theorem withAttrs {attrs : Entries String}
    (hattrs : ∀ name ∈ structuralAttrs, h.hasAttr name → attrs.has name) :
    h.Carries { h with attrs } := ⟨⟨rfl, rfl, rfl, rfl⟩, rfl, rfl, hattrs⟩

theorem setAttr : h.Carries (h.setAttr name value) := by
  apply withAttrs
  intro attr _ hattr
  have hattr : h.attrs.has attr := hattr
  rw [Entries.has_set, hattr, Bool.or_true]

theorem removeAttr (hname : name ∉ structuralAttrs) : h.Carries (h.removeAttr name) := by
  apply withAttrs
  intro attr hmem hattr
  exact Entries.has_erase_of_ne (fun heq => hname (heq ▸ hmem)) hattr

theorem replaceAttr (hold : old ∉ structuralAttrs) : h.Carries (h.replaceAttr old new value) := by
  apply withAttrs
  intro attr hmem hattr
  exact Entries.has_replace_of_ne (fun heq => hold (heq ▸ hmem)) hattr

theorem removeAttrs {names : List String} (hnames : ∀ name ∈ names, name ∉ structuralAttrs) :
    h.Carries (names.foldl (·.removeAttr ·) h) := by
  induction names generalizing h with
  | nil => exact refl h
  | cons name names ih =>
    have hfirst : h.Carries (h.removeAttr name) := removeAttr (hnames name List.mem_cons_self)
    exact hfirst.trans (ih fun other hmem => hnames other (List.mem_cons_of_mem _ hmem))

theorem mergeAttr {parts : List String} (hparts : ∀ part ∈ parts, part ∉ structuralAttrs) :
    h.Carries (mergeAttr h name parts value) := by
  unfold Transform.mergeAttr
  split
  · exact setAttr.trans (removeAttrs hparts)
  · split
    · rename_i anchor hanchor
      have hmem := List.mem_of_find?_eq_some hanchor
      exact (replaceAttr (hparts anchor hmem)).trans (removeAttrs hparts)
    · exact setAttr.trans (removeAttrs hparts)

end Head.Carries

/-! ## Written directives -/

structure Head.TestsWritten (h : Head) : Prop where
  ifTest : h.ifTest.isSome → h.hasAttr "s-if"
  elseIfTest : h.elseIfTest.isSome → h.hasAttr "s-else-if"
  hasElse : h.hasElse → h.hasAttr "s-else"

structure Head.DirectivesWritten (h : Head) : Prop extends h.TestsWritten where
  loop : h.loop.isSome → h.hasAttr "s-for"

/-- A fragment that was a transition of the source with the same tests and the same loop. -/
structure Head.Drained (source : List Node) (h : Head) : Prop where
  tag : h.tag = fragmentTag
  attrs : ∀ name, h.hasAttr name → name = "s-transition"
  origin : ∃ t, Occurs source t ∧ t.head.tag = "transition" ∧ t.head.extract.1.SameDirectives h

/-- The directives are written, unless a transition lost them. -/
def Head.Kept (source : List Node) (h : Head) : Prop := h.DirectivesWritten ∨ h.Drained source

structure Head.Prepared (source : List Node) (h : Head) : Prop where
  rawNames : ∀ name ∈ h.directives.map (·.rawName), name ∉ structuralAttrs
  origin : h.tag = "transition" →
    ∃ t, Occurs source t ∧ t.head.tag = "transition" ∧ t.head.extract.1.SameDirectives h

section Carried

variable {h h' : Head}

theorem Head.TestsWritten.carried (hw : h.TestsWritten) (hc : h.Carries h') : h'.TestsWritten where
  ifTest hsome := hc.attrs _ (by decide) (hw.ifTest (hc.ifTest ▸ hsome))
  elseIfTest hsome := hc.attrs _ (by decide) (hw.elseIfTest (hc.elseIfTest ▸ hsome))
  hasElse helse := hc.attrs _ (by decide) (hw.hasElse (hc.hasElse ▸ helse))

theorem Head.DirectivesWritten.carried (hw : h.DirectivesWritten) (hc : h.Carries h') :
    h'.DirectivesWritten where
  toTestsWritten := hw.toTestsWritten.carried hc
  loop hsome := hc.attrs _ (by decide) (hw.loop (hc.loop ▸ hsome))

theorem Head.DirectivesWritten.retag (hw : h.DirectivesWritten) (tag : String) :
    Head.DirectivesWritten { h with tag } :=
  ⟨⟨hw.ifTest, hw.elseIfTest, hw.hasElse⟩, hw.loop⟩

theorem Head.SameDirectives.trans {h'' : Head} (hs : h.SameDirectives h')
    (hs' : h'.SameDirectives h'') : h.SameDirectives h'' :=
  ⟨hs'.ifTest.trans hs.ifTest, hs'.elseIfTest.trans hs.elseIfTest, hs'.hasElse.trans hs.hasElse,
    hs'.loop.trans hs.loop⟩

theorem Head.Prepared.carried {source : List Node} (hp : h.Prepared source) (hc : h.Carries h') :
    h'.Prepared source where
  rawNames := hc.rawNames ▸ hp.rawNames
  origin htag := by
    obtain ⟨t, ht, httag, hsame⟩ := hp.origin (hc.tag ▸ htag)
    exact ⟨t, ht, httag, hsame.trans hc.toSameDirectives⟩

theorem Head.Kept.setTransition {source : List Node} (hk : h.Kept source) (code : String) :
    (h.setAttr "s-transition" code).Kept source := by
  have hc : h.Carries (h.setAttr "s-transition" code) := .setAttr
  rcases hk with hw | hd
  · exact .inl (hw.carried hc)
  · obtain ⟨t, ht, httag, hsame⟩ := hd.origin
    refine .inr ⟨hd.tag, ?_, t, ht, httag, hsame.trans hc.toSameDirectives⟩
    intro name hname
    have hname : (h.attrs.set "s-transition" code).has name := hname
    rw [Entries.has_set, Bool.or_eq_true, decide_eq_true_iff] at hname
    exact hname.elim id (hd.attrs name)

end Carried

end VueToSan.Markup

namespace VueToSan.Transform

open VueToSan.Markup VueToSan.Text

/-! ## Rules that touch no structural attribute -/

theorem fillEmpty_carries (h : Head) : h.Carries (fillEmpty h) := by
  apply Head.Carries.withAttrs
  intro name _ hattr
  rw [Entries.has_map_values]
  · exact hattr
  · rintro ⟨name, value⟩
    dsimp only
    split <;> rfl

theorem not_structural_of_strip {word : List Char} {name : String}
    (hword : word.head?.any (· ≠ 's')) (h : (stripStart? word name.toList).isSome) :
    name ∉ structuralAttrs := by
  apply not_structural
  obtain ⟨rest, hrest⟩ := Option.isSome_iff_exists.1 h
  obtain ⟨c, hc, hne⟩ := (Option.any_eq_true _ _).1 hword
  rw [San.stripStart?_eq_some.1 hrest, List.head?_append, hc]
  simpa using hne

theorem not_structural_of_orElse {word word' : List Char} {name : String}
    (hword : word.head?.any (· ≠ 's')) (hword' : word'.head?.any (· ≠ 's'))
    (h : ((stripStart? word name.toList).orElse fun _ =>
      stripStart? word' name.toList).isSome) : name ∉ structuralAttrs := by
  cases hstrip : stripStart? word name.toList with
  | some rest => exact not_structural_of_strip hword (by rw [hstrip]; rfl)
  | none =>
    rw [hstrip] at h
    exact not_structural_of_strip hword' h

theorem listener_not_structural {name : String} (h : (listenerName? name).isSome) :
    name ∉ structuralAttrs := not_structural_of_orElse (by decide) (by decide) h

theorem bound_not_structural {name : String} (h : (boundName? name).isSome) :
    name ∉ structuralAttrs := not_structural_of_orElse (by decide) (by decide) h

theorem transformListener_carries {a : Attr} {h h' : Head}
    (hdone : transformListener a h = .done h') : h.Carries h' := by
  unfold transformListener at hdone
  split at hdone
  · cases hdone
    exact .refl h
  · rename_i cs hname
    have hold : a.name ∉ structuralAttrs := listener_not_structural (by rw [hname]; rfl)
    dsimp only at hdone
    split at hdone
    · cases hdone
      exact .replaceAttr hold
    · obtain ⟨compiled, -, hdone⟩ := Edit.withCode_eq_done.1 hdone
      cases hdone
      exact .replaceAttr hold

theorem transformListeners_carries {h h' : Head} (hdone : transformListeners h = .done h') :
    h.Carries h' :=
  Edit.each_keeps (fun _ _ _ _ hc hstep => hc.trans (transformListener_carries hstep)) (.refl h)
    hdone

theorem transformModel_carries {h h' : Head}
    (hnames : ∀ name ∈ h.directives.map (·.rawName), name ∉ structuralAttrs)
    (hdone : transformModel h = .done h') : h.Carries h' := by
  unfold transformModel at hdone
  split at hdone
  · cases hdone
    exact .refl h
  · rename_i d hd
    have hold : d.rawName ∉ structuralAttrs :=
      hnames _ (List.mem_map_of_mem (List.mem_of_find?_eq_some hd))
    obtain ⟨compiled, -, hdone⟩ := Edit.withCompiled_eq_done.1 hdone
    split at hdone
    · cases hdone
      exact .replaceAttr hold
    · cases hdone

theorem rawName_renameDirective (name value : String) (ds : List Directive) :
    (renameDirective name value ds).map (·.rawName) = ds.map (·.rawName) := by
  induction ds with
  | nil => rfl
  | cons d ds ih =>
    unfold renameDirective
    split
    · rfl
    · rw [List.map_cons, List.map_cons, ih]

theorem renameHtml_carries (form : String) (wrap : String → String) (h : Head)
    (hform : "v-" ++ form ∉ structuralAttrs) : h.Carries (renameHtml form wrap h) := by
  unfold renameHtml
  split
  · exact .refl h
  · rename_i value _
    have hrenamed : h.Carries { h with
        directives := renameDirective form (wrap value) h.directives } :=
      ⟨⟨rfl, rfl, rfl, rfl⟩, rfl, rawName_renameDirective form _ _, fun _ _ => id⟩
    exact hrenamed.trans (.replaceAttr hform)

theorem transformHtml_carries {e e' : Element} (hdone : transformHtml e = .done e') :
    e.head.Carries e'.head := by
  unfold transformHtml at hdone
  split at hdone
  · cases hdone
    exact .refl _
  · obtain ⟨compiled, -, hdone⟩ := Edit.withCode_eq_done.1 hdone
    cases hdone
    exact .replaceAttr (by decide)

theorem transformText_carries {e e' : Element} (hdone : transformText e = .done e') :
    e.head.Carries e'.head := by
  unfold transformText at hdone
  split at hdone
  · cases hdone
    exact .refl _
  · obtain ⟨compiled, -, hdone⟩ := Edit.withCode_eq_done.1 hdone
    cases hdone
    exact .removeAttr (by decide)

theorem transformContent_carries {e e' : Element} (hdone : transformContent e = .done e') :
    e.head.Carries e'.head := by
  obtain ⟨x, hx, hdone⟩ := Edit.andThen_eq_done.1 hdone
  have hcarries := (transformHtml_carries hx).trans (transformText_carries hdone)
  have hdangerous := renameHtml_carries "dangerous-html" id e.head (by decide)
  exact (hdangerous.trans (renameHtml_carries "safe-html" _ _ (by decide))).trans hcarries

theorem transformRef_carries {h h' : Head} {context context' : Context}
    (hdone : transformRef (h, context) = .done (h', context')) : h.Carries h' := by
  obtain ⟨x, hx, heq⟩ := Edit.map_eq_done.1 hdone
  cases heq
  have hfixed : h.Carries (transformFixedRef h context).1 := by
    unfold transformFixedRef
    split
    · exact .refl h
    · exact .replaceAttr (by decide)
  apply Edit.each_keeps (P := h.Carries) _ hfixed hx
  intro key hkey a b ha hb
  have hold : key ∉ structuralAttrs := by
    have hkeys : ∀ k ∈ [":ref", "v-bind:ref"], k ∉ structuralAttrs := by decide
    exact hkeys key hkey
  unfold transformBoundRef at hb
  split at hb
  · cases hb
    exact ha
  · obtain ⟨compiled, -, hb⟩ := Edit.withCode_eq_done.1 hb
    cases hb
    exact ha.trans (.replaceAttr hold)

theorem transformClass_carries {h h' : Head} (hdone : transformClass h = .done h') :
    h.Carries h' := by
  unfold transformClass at hdone
  split at hdone
  · cases hdone
    exact .refl h
  · obtain ⟨compiled, -, hdone⟩ := Edit.withCode_eq_done.1 hdone
    cases hdone
    exact .mergeAttr (by decide)

theorem transformStyle_carries {h h' : Head} (hdone : transformStyle h = .done h') :
    h.Carries h' := by
  unfold transformStyle at hdone
  split at hdone
  · cases hdone
    exact .refl h
  · obtain ⟨compiled, -, hdone⟩ := Edit.withCode_eq_done.1 hdone
    cases hdone
    exact .mergeAttr (by decide)
  · obtain ⟨compiled, -, hdone⟩ := Edit.withCode_eq_done.1 hdone
    cases hdone
    exact .mergeAttr (by decide)
  · obtain ⟨bound, -, hdone⟩ := Edit.withCode_eq_done.1 hdone
    obtain ⟨shown, -, hdone⟩ := Edit.withCode_eq_done.1 hdone
    cases hdone
    exact .mergeAttr (by decide)

theorem transformBinding_carries {key : String} {site site' : Head × Context}
    (hkey : (boundName? key).isSome) (hdone : transformBinding key site = .done site') :
    site.1.Carries site'.1 := by
  have hold := bound_not_structural hkey
  unfold transformBinding at hdone
  dsimp only at hdone
  split at hdone
  · cases hdone
    exact .removeAttr hold
  · obtain ⟨compiled, -, hdone⟩ := Edit.withCompiled_eq_done.1 hdone
    split at hdone
    · split at hdone
      · cases hdone
        exact .replaceAttr hold
      · cases hdone
    · cases hdone
      exact .replaceAttr hold

theorem transformSpread_carries {h h' : Head} (hdone : transformSpread h = .done h') :
    h.Carries h' := by
  unfold transformSpread at hdone
  split at hdone
  · cases hdone
    exact .refl h
  · obtain ⟨compiled, -, hdone⟩ := Edit.withCode_eq_done.1 hdone
    cases hdone
    exact .replaceAttr (by decide)

theorem transformBindings_carries {site site' : Head × Context}
    (hdone : transformBindings site = .done site') : site.1.Carries site'.1 := by
  obtain ⟨spread, hspread, hdone⟩ := Edit.andThen_eq_done.1 hdone
  obtain ⟨head, hhead, rfl⟩ := Edit.map_eq_done.1 hspread
  apply Edit.each_keeps (P := fun x : Head × Context => site.1.Carries x.1) _
    (transformSpread_carries hhead) hdone
  intro key hkey a b ha hb
  exact ha.trans (transformBinding_carries (List.mem_filter.1 hkey).2 hb)

/-! ## Writing tests and loops -/

theorem renameTest_writes {test : Option String} {old new : String} {h h' : Head}
    (hold : old ∉ structuralAttrs) (hdone : renameTest test old new h = .done h') :
    h.Carries h' ∧ (test.isSome → h'.hasAttr new) := by
  unfold renameTest at hdone
  split at hdone
  · cases hdone
    exact ⟨.refl h, by simp⟩
  · obtain ⟨compiled, -, hdone⟩ := Edit.withCode_eq_done.1 hdone
    cases hdone
    exact ⟨.replaceAttr hold, fun _ => Entries.has_replace_self _ _ _ _⟩

theorem transformConditional_writes {h h' : Head} (hdone : transformConditional h = .done h') :
    h.Carries h' ∧ h'.TestsWritten := by
  obtain ⟨h₁, hif, hdone⟩ := Edit.andThen_eq_done.1 hdone
  obtain ⟨h₂, helseIf, hdone⟩ := Edit.andThen_eq_done.1 hdone
  obtain ⟨hc₁, hw₁⟩ := renameTest_writes (by decide) hif
  obtain ⟨hc₂, hw₂⟩ := renameTest_writes (by decide) helseIf
  have hc₃ : h₂.Carries h' ∧ (h₂.hasElse → h'.hasAttr "s-else") := by
    cases hdone
    split
    · exact ⟨.replaceAttr (by decide), fun _ => Entries.has_replace_self _ _ _ _⟩
    · rename_i hnone
      exact ⟨.refl h₂, fun helse => absurd helse hnone⟩
  obtain ⟨hc₃, hw₃⟩ := hc₃
  refine ⟨(hc₁.trans hc₂).trans hc₃, ?_, ?_, ?_⟩
  · intro hsome
    rw [((hc₁.trans hc₂).trans hc₃).ifTest] at hsome
    exact (hc₂.trans hc₃).attrs _ (by decide) (hw₁ hsome)
  · intro hsome
    rw [(hc₂.trans hc₃).elseIfTest] at hsome
    exact hc₃.attrs _ (by decide) (hw₂ hsome)
  · intro helse
    rw [hc₃.hasElse] at helse
    exact hw₃ helse

theorem setLoop_writes (h : Head) (value : String) :
    h.Carries (setLoop h value) ∧ (setLoop h value).hasAttr "s-for" := by
  have hkeys : ∀ key ∈ keyAttrs, key ∉ structuralAttrs := by decide
  have hfor : h.Carries (h.replaceAttr "v-for" "s-for" value) := .replaceAttr (by decide)
  have hdropped := Head.Carries.removeAttrs (h := h.replaceAttr "v-for" "s-for" value) hkeys
  exact ⟨hfor.trans hdropped, hdropped.attrs _ (by decide) (Entries.has_replace_self _ _ _ _)⟩

theorem transformLoop_writes {h h' : Head} (hdone : transformLoop h = .done h') :
    h.Carries h' ∧ (h.loop.isSome → h'.hasAttr "s-for") := by
  unfold transformLoop at hdone
  split at hdone
  · rename_i hnone
    cases hdone
    exact ⟨.refl h, by simp [hnone]⟩
  · obtain ⟨list, -, hdone⟩ := Edit.withCode_eq_done.1 hdone
    dsimp only at hdone
    split at hdone
    · cases hdone
      exact ⟨(setLoop_writes h _).1, fun _ => (setLoop_writes h _).2⟩
    · obtain ⟨key, -, hdone⟩ := Edit.withCompiled_eq_done.1 hdone
      cases hdone
      exact ⟨(setLoop_writes h _).1, fun _ => (setLoop_writes h _).2⟩

/-! ## What the rules leave -/

section Leave

variable {source : List Node}

def IsKept (source : List Node) (e : Element) : Prop := e.head.Kept source

theorem isKept_setTransition (code : String) (e : Element) (h : IsKept source e) :
    IsKept source (setTransition code e) := h.setTransition code

theorem takes_boolean :
    booleanRule.Takes (Below (IsKept source) (Head.Prepared source))
      (Below (IsKept source) (Head.Prepared source)) := by
  apply takes_ofHead_below
  intro h h' hprepared hdone
  cases hdone
  exact hprepared.carried (fillEmpty_carries h)

theorem takes_conditional :
    ifRule.Takes (Below (IsKept source) (Head.Prepared source))
      (Below (IsKept source) fun h => h.Prepared source ∧ h.TestsWritten) := by
  apply takes_ofHead_below
  intro h h' hprepared hdone
  obtain ⟨hcarries, hwritten⟩ := transformConditional_writes hdone
  exact ⟨hprepared.carried hcarries, hwritten⟩

theorem takes_loop :
    forRule.Takes (Below (IsKept source) fun h => h.Prepared source ∧ h.TestsWritten)
      (Below (IsKept source) fun h => h.Prepared source ∧ h.DirectivesWritten) := by
  apply takes_ofHead_below
  intro h h' ⟨hprepared, htests⟩ hdone
  obtain ⟨hcarries, hloop⟩ := transformLoop_writes hdone
  exact ⟨hprepared.carried hcarries, htests.carried hcarries, fun hsome =>
    hloop (hcarries.loop ▸ hsome)⟩

def attributeRules : List Rule :=
  [eventRule, modelRule, htmlRule, refRule, classRule, styleRule, bindRule]

theorem takes_attributes :
    ∀ rule ∈ attributeRules,
      rule.Takes (Below (IsKept source) fun h => h.Prepared source ∧ h.DirectivesWritten)
        (Below (IsKept source) fun h => h.Prepared source ∧ h.DirectivesWritten) := by
  have hcarried {h h' : Head} (hc : h.Carries h') (hh : h.Prepared source ∧ h.DirectivesWritten) :
      h'.Prepared source ∧ h'.DirectivesWritten := ⟨hh.1.carried hc, hh.2.carried hc⟩
  simp only [attributeRules, List.forall_mem_cons]
  refine ⟨?_, ?_, ?_, ?_, ?_, ?_, ?_, by simp⟩
  · exact takes_ofHead_below fun _ _ hh hdone => hcarried (transformListeners_carries hdone) hh
  · exact takes_ofHead_below fun _ _ hh hdone =>
      hcarried (transformModel_carries hh.1.rawNames hdone) hh
  · exact takes_html_below fun _ _ hh hdone => hcarried (transformContent_carries hdone) hh
  · exact takes_ofHeadAndContext_below fun _ _ _ _ hh hdone =>
      hcarried (transformRef_carries hdone) hh
  · exact takes_ofHead_below fun _ _ hh hdone => hcarried (transformClass_carries hdone) hh
  · exact takes_ofHead_below fun _ _ hh hdone => hcarried (transformStyle_carries hdone) hh
  · exact takes_ofHeadAndContext_below fun _ _ _ _ hh hdone =>
      hcarried (transformBindings_carries hdone) hh

theorem takes_transition :
    transitionRule.Takes (Below (IsKept source) fun h => h.Prepared source ∧ h.DirectivesWritten)
      (Below (IsKept source) (Head.Kept source)) := by
  apply takes_transition_below isKept_setTransition isKept_setTransition
  intro e ⟨hprepared, hwritten⟩
  unfold transformTransition
  split
  · rename_i htag
    obtain ⟨t, ht, httag, hsame⟩ := hprepared.origin htag
    refine .inr ⟨rfl, ?_, t, ht, httag, hsame.ifTest, hsame.elseIfTest, hsame.hasElse, hsame.loop⟩
    intro name hname
    cases hname
  · exact .inl hwritten

theorem splitByTest_kept {e : Element} (he : Below (IsKept source) Head.DirectivesWritten e)
    (test consequent alternate : String) :
    (splitByTest e test consequent alternate).All (IsKept source) := by
  have howner : (e.head.setAttr "s-if" test).DirectivesWritten := he.head.carried .setAttr
  have hother : (e.head.setAttr "s-else" "").DirectivesWritten := he.head.carried .setAttr
  refine .intro (.inl (howner.retag consequent)) fun x hx => ?_
  rcases splitByTest_part hx with hx | rfl
  · exact he.children x hx
  · exact .of_children (.inl (hother.retag alternate)) he.children

theorem resolveTag_kept {code : String} {e e' : Element}
    (he : Below (IsKept source) Head.DirectivesWritten e) (h : resolveTag code e = .done e') :
    e'.All (IsKept source) := by
  unfold resolveTag at h
  split at h
  · cases h
  · split at h
    · cases h
    · split at h
      · cases h
        exact (he.withHead (he.head.retag _)).all (.inl (he.head.retag _))
      · split at h
        · cases h
          exact splitByTest_kept he _ _ _
        · cases h
      · cases h

theorem takes_component :
    dynamicComponentRule.Takes (Below (IsKept source) (Head.Kept source))
      (Element.All (IsKept source)) := by
  apply Rule.takes_ofElement
  intro e e' he h
  unfold transformComponent at h
  split at h
  · rename_i htag
    -- A fragment is no component, so nothing was lost here.
    have hwritten : e.head.DirectivesWritten := by
      rcases he.head with hwritten | hdrained
      · exact hwritten
      · have hne : fragmentTag ≠ "component" := by decide
        exact absurd (hdrained.tag.symm.trans htag) hne
    split at h
    · cases h
      exact he.all he.head
    · have hbare : (e.head.removeAttr "is").DirectivesWritten :=
        hwritten.carried (.removeAttr (by decide))
      dsimp only at h
      split at h
      · cases h
        exact (he.withHead (hbare.retag _)).all (.inl (hbare.retag _))
      · exact resolveTag_kept (he.withHead hbare) h
  · cases h
    exact he.all he.head

theorem builtinRules_kept {e e' : Element} {context context' : Context}
    (he : Below (IsKept source) (Head.Prepared source) e)
    (h : runAfter builtinRules e context = .done (e', context')) : e'.All (IsKept source) := by
  have hsplit : builtinRules = templateRule :: booleanRule :: ifRule :: forRule ::
      (attributeRules ++ [transitionRule, dynamicComponentRule]) := rfl
  rw [hsplit] at h
  obtain ⟨e₁, c₁, htemplate, h⟩ := runAfter_cons h
  obtain ⟨e₂, c₂, hboolean, h⟩ := runAfter_cons h
  obtain ⟨e₃, c₃, hif, h⟩ := runAfter_cons h
  obtain ⟨e₄, c₄, hfor, h⟩ := runAfter_cons h
  obtain ⟨e₅, c₅, hattributes, h⟩ := runAfter_append h
  obtain ⟨e₆, c₆, htransition, h⟩ := runAfter_cons h
  obtain ⟨e₇, c₇, hcomponent, h⟩ := runAfter_cons h
  cases h
  have h₁ := Rule.takes_ofBefore e e₁ context c₁ he htemplate
  have h₂ := takes_boolean e₁ e₂ c₁ c₂ h₁ hboolean
  have h₃ := takes_conditional e₂ e₃ c₂ c₃ h₂ hif
  have h₄ := takes_loop e₃ e₄ c₃ c₄ h₃ hfor
  have h₅ := runAfter_keeps takes_attributes h₄ hattributes
  have h₆ := takes_transition e₅ e₆ c₅ c₆ h₅ htransition
  exact takes_component e₆ e' c₆ context' h₆ hcomponent

end Leave

/-! ## The walk -/

theorem rawName_of_directive? {a : Attr} {d : Directive} (h : a.directive? = some d) :
    d.rawName ∉ structuralAttrs := by
  unfold Attr.directive? at h
  split at h
  · cases h
  · rename_i rest hrest
    have hsome : (stripStart? "v-".toList a.name.toList).isSome := by rw [hrest]; rfl
    split at h
    · cases h
    · obtain ⟨-, h⟩ := Option.ite_none_left_eq_some.1 h
      cases h
      exact not_structural_of_strip (by decide) hsome

theorem extract_rawNames (h : Head) :
    ∀ name ∈ h.extract.1.directives.map (·.rawName), name ∉ structuralAttrs := by
  intro name hname
  obtain ⟨d, hd, rfl⟩ := List.mem_map.1 hname
  obtain ⟨a, -, ha⟩ := List.mem_filterMap.1 hd
  exact rawName_of_directive? ha

theorem runBefore_builtinRules (e : Element) (context : Context) :
    runBefore builtinRules e context = (fragmentHead e.head, context) := rfl

theorem fragmentHead_prepared {source : List Node} {e : Element} (he : Occurs source e) :
    (fragmentHead e.head).extract.1.Prepared source where
  rawNames := extract_rawNames _
  origin htag := by
    unfold fragmentHead at htag ⊢
    split at htag
    · have hne : fragmentTag ≠ "transition" := by decide
      exact absurd htag hne
    · rename_i htemplate
      rw [if_neg htemplate]
      exact ⟨e, he, htag, rfl, rfl, rfl, rfl⟩

theorem keptInvariant (source : List Node) :
    WalkInvariant builtinRules (fun e => Occurs source e ∧ e.branches = [])
      (Element.All (IsKept source)) (Element.All (IsKept source)) where
  after e e' context inner outer children hsource hchildren _ h := by
    rw [runBefore_builtinRules] at h
    apply builtinRules_kept _ h
    exact ⟨fragmentHead_prepared hsource.1, hsource.2, hchildren⟩
  settle e he _ := he
  attach e b he _ hb _ := Element.All.addBranch he.self he hb

/-- In a walked template every test and every loop has its attribute, except on fragments that were
transitions: these have no attribute of their own left. -/
theorem walk_directivesWritten {options : ReadOptions} {source : String}
    {context context' : Context} {nodes : List Node}
    (h : walk builtinRules (read options source).value context = .done (nodes, context'))
    {e : Element} (he : Occurs nodes e) :
    e.head.DirectivesWritten ∨ e.head.Drained (read options source).value := by
  apply he.of_all ((keptInvariant (read options source).value).settled_walk _ h)
  intro x hx
  exact ⟨hx, hx.of_all fun _ => read_fresh⟩

def sampleLoop : String :=
  "<ul><li v-for=\"(x, i) in xs\" :key=\"x\" v-if=\"x.ok\" :class=\"c\" @click=\"go\"></li></ul>"

theorem sampleLoop_written :
    ∃ nodes context' e, walk builtinRules (read {} sampleLoop).value {} = .done (nodes, context') ∧
      Occurs nodes e ∧ e.head.ifTest = some "x.ok" ∧ e.head.loop.isSome ∧
      e.head.DirectivesWritten := by
  generalize hresult : walk builtinRules (read {} sampleLoop).value {} = result
  have heval : (result.error?.isNone &&
      ((firstElement? result.value.1).bind fun root => firstElement? root.children).any fun e =>
        e.head.tag == "li" && e.head.ifTest == some "x.ok" && e.head.loop.isSome) = true := by
    rw [← hresult]
    decide +kernel
  simp only [Bool.and_eq_true, Option.any_eq_true, Option.bind_eq_some_iff, beq_iff_eq] at heval
  obtain ⟨hdone, e, ⟨root, hroot, he⟩, ⟨htag, hif⟩, hloop⟩ := heval
  have hwalk : result = .done (result.value.1, result.value.2) := Edit.eq_done_of_error? hdone
  have hoccurs : Occurs result.value.1 e :=
    ⟨root, firstElement?_mem hroot, .single (.child (firstElement?_mem he))⟩
  refine ⟨_, _, e, hwalk, hoccurs, hif, hloop, ?_⟩
  rcases walk_directivesWritten (hresult.trans hwalk) hoccurs with hwritten | hdrained
  · exact hwritten
  · exact absurd (htag.symm.trans hdrained.tag) (by decide)

/-- A transition with a test loses it. -/
theorem transition_loses_test :
    ∃ nodes context' e,
      walk builtinRules (read {} "<transition v-if=\"a\"><p></p></transition>").value {} =
        .done (nodes, context') ∧
      Occurs nodes e ∧ e.head.ifTest = some "a" ∧ e.head.hasAttr "s-if" = false := by
  generalize hresult :
    walk builtinRules (read {} "<transition v-if=\"a\"><p></p></transition>").value {} = result
  have heval : (result.error?.isNone && (firstElement? result.value.1).any fun e =>
      e.head.ifTest == some "a" && !e.head.hasAttr "s-if") = true := by
    rw [← hresult]
    decide +kernel
  simp only [Bool.and_eq_true, Option.any_eq_true, beq_iff_eq, Bool.not_eq_true'] at heval
  obtain ⟨hdone, e, he, hif, hlost⟩ := heval
  exact ⟨_, _, e, Edit.eq_done_of_error? hdone, ⟨e, firstElement?_mem he, .refl⟩, hif, hlost⟩

end VueToSan.Transform
