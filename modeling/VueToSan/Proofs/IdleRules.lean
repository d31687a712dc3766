import VueToSan.Proofs.PreparedHeads

/-!
# Elements without directives

An element none of whose attributes stands for a directive passes all rules: empty attributes are
filled, a fixed name is moved, and nothing else changes.
-/

namespace VueToSan.Transform

open VueToSan.Markup VueToSan.Text

def marks : List String := ["v-", "a-", "s-", "on-", ":", "@"]

def isMarked (name : String) : Bool := marks.any fun m => m.toList.isPrefixOf name.toList

/-- A head whose directive fields are empty. The only attribute of San that it may have is the name
of the element. -/
structure IsIdle (h : Head) : Prop where
  ifTest : h.ifTest = none
  elseIfTest : h.elseIfTest = none
  hasElse : h.hasElse = false
  loop : h.loop = none
  classBinding : h.classBinding = none
  styleBinding : h.styleBinding = none
  directives : h.directives = []
  declared : ∀ a ∈ h.declared, isMarked a.name = false
  attrs : ∀ entry ∈ h.attrs, isMarked entry.1 = false ∨ entry.1 = "s-ref"

namespace IsIdle

variable {h : Head}

theorem attr? (hi : IsIdle h) (name : String) (hmarked : isMarked name = true)
    (hname : name ≠ "s-ref") : h.attr? name = none := by
  apply Entries.get?_eq_none_of_forall
  rintro entry hentry rfl
  rcases hi.attrs entry hentry with hplain | heq
  · rw [hmarked] at hplain
    cases hplain
  · exact hname heq

theorem hasAttr (hi : IsIdle h) (name : String) (hmarked : isMarked name = true)
    (hname : name ≠ "s-ref") : h.hasAttr name = false := by
  rw [Head.hasAttr, Entries.has_eq_isSome, ← Head.attr?, hi.attr? _ hmarked hname]
  rfl

theorem withAttrs (hi : IsIdle h) {attrs : Entries String}
    (hattrs : ∀ entry ∈ attrs, isMarked entry.1 = false ∨ entry.1 = "s-ref") :
    IsIdle { h with attrs } :=
  ⟨hi.ifTest, hi.elseIfTest, hi.hasElse, hi.loop, hi.classBinding, hi.styleBinding, hi.directives,
    hi.declared, hattrs⟩

end IsIdle

/-! ## Names that are not marked -/

theorem isPrefixOf_mark (mark : String) (hmark : mark ∈ marks) {name : String}
    (hname : mark.toList.isPrefixOf name.toList = true) : isMarked name = true :=
  List.any_eq_true.2 ⟨mark, hmark, hname⟩

theorem stripStart?_of_mark {name : String} (hname : isMarked name = false) (mark word : String)
    (hmark : mark ∈ marks) (hword : mark.toList.isPrefixOf word.toList = true) :
    stripStart? word.toList name.toList = none := by
  rw [stripStart?, if_neg]
  intro hstart
  have hboth := ( List.isPrefixOf_iff_prefix.1 hword).trans ( List.isPrefixOf_iff_prefix.1 hstart)
  rw [isPrefixOf_mark mark hmark ( List.isPrefixOf_iff_prefix.2 hboth)] at hname
  cases hname

theorem listenerName?_of_not_marked {name : String} (hname : isMarked name = false) :
    listenerName? name = none := by
  have hat := stripStart?_of_mark hname "@" "@" (by decide) (by decide)
  have hon := stripStart?_of_mark hname "v-" "v-on:" (by decide) (by decide)
  rw [listenerName?]
  exact (congrArg (Option.orElse · _) hat).trans hon

theorem boundName?_of_not_marked {name : String} (hname : isMarked name = false) :
    boundName? name = none := by
  have hcolon := stripStart?_of_mark hname ":" ":" (by decide) (by decide)
  have hbind := stripStart?_of_mark hname "v-" "v-bind:" (by decide) (by decide)
  rw [boundName?]
  exact (congrArg (Option.orElse · _) hcolon).trans hbind

theorem directive?_of_not_marked {a : Attr} (hname : isMarked a.name = false) :
    a.directive? = none := by
  have hv := stripStart?_of_mark hname "v-" "v-" (by decide) (by decide)
  rw [Attr.directive?, hv]

/-! ## One rule at a time -/

section Rules

variable {h : Head}

theorem transformConditional_idle (hi : IsIdle h) : transformConditional h = .done h := by
  simp only [transformConditional, renameTest, hi.ifTest, hi.elseIfTest, hi.hasElse, Edit.andThen]
  rfl

theorem transformLoop_idle (hi : IsIdle h) : transformLoop h = .done h := by
  rw [transformLoop, hi.loop]

theorem transformListeners_idle (hi : IsIdle h) : transformListeners h = .done h := by
  have hnone : (h.declared.filter fun a => (listenerName? a.name).isSome) = [] := by
    rw [List.filter_eq_nil_iff]
    intro a ha
    rw [listenerName?_of_not_marked (hi.declared a ha)]
    decide
  rw [transformListeners, hnone, Edit.each]

theorem transformModel_idle (hi : IsIdle h) : transformModel h = .done h := by
  rw [transformModel, Head.directive?, hi.directives]
  rfl

theorem transformContent_idle {e : Element} (hi : IsIdle e.head) :
    transformContent e = .done e := by
  obtain ⟨head, children, branches⟩ := e
  have hform (form : String) (wrap : String → String) (hmarked : isMarked ("v-" ++ form) = true)
      (hname : "v-" ++ form ≠ "s-ref") : renameHtml form wrap head = head := by
    rw [renameHtml, hi.attr? _ hmarked hname]
  have hsource (name : String) (hmarked : isMarked ("v-" ++ name) = true)
      (hname : "v-" ++ name ≠ "s-ref") : contentSource? head name = none := by
    rw [contentSource?, hi.hasAttr _ hmarked hname]
    rfl
  rw [transformContent, hform _ _ (by decide) (by decide), hform _ _ (by decide) (by decide)]
  simp only [transformHtml, transformText, hsource "html" (by decide) (by decide),
    hsource "text" (by decide) (by decide), Edit.andThen]

theorem transformRef_idle (hi : IsIdle h) (context : Context) :
    transformRef (h, context) = .done (transformFixedRef h context) := by
  have hbound (key : String) (hmarked : isMarked key = true) (hkey : key ≠ "s-ref") :
      (transformFixedRef h context).1.attr? key = none := by
    unfold transformFixedRef
    split
    · exact hi.attr? _ hmarked hkey
    · have hold : key ≠ "ref" := by
        rintro rfl
        exact absurd hmarked (by decide)
      exact (Entries.get?_replace_of_ne hold hkey).trans (hi.attr? _ hmarked hkey)
  rw [transformRef]
  dsimp only
  simp only [Edit.each, transformBoundRef, hbound ":ref" (by decide) (by decide),
    hbound "v-bind:ref" (by decide) (by decide), Edit.andThen, Edit.map]

theorem transformClass_idle (hi : IsIdle h) : transformClass h = .done h := by
  rw [transformClass, hi.classBinding]

theorem transformStyle_idle (hi : IsIdle h) : transformStyle h = .done h := by
  rw [transformStyle, hi.styleBinding, hi.attr? "v-show" (by decide) (by decide)]
  rfl

theorem transformBindings_idle (hi : IsIdle h) (context : Context) :
    transformBindings (h, context) = .done (h, context) := by
  have hnone : (h.attrs.keys.filter fun key => (boundName? key).isSome) = [] := by
    rw [List.filter_eq_nil_iff]
    intro key hkey
    obtain ⟨entry, hentry, rfl⟩ := List.mem_map.1 hkey
    rcases hi.attrs entry hentry with hplain | heq
    · rw [boundName?_of_not_marked hplain]
      decide
    · rw [heq]
      decide
  simp only [transformBindings, transformSpread, hi.attr? "v-bind" (by decide) (by decide),
    Edit.map, Edit.andThen, hnone, Edit.each]

theorem IsIdle.fillEmpty (hi : IsIdle h) : IsIdle (fillEmpty h) := by
  apply hi.withAttrs
  intro entry hentry
  have hentry : entry ∈ (Transform.fillEmpty h).attrs := hentry
  rw [fillEmpty_attrs] at hentry
  obtain ⟨old, hmem, rfl⟩ := List.mem_map.1 hentry
  exact hi.attrs old hmem

theorem IsIdle.transformFixedRef (hi : IsIdle h) (context : Context) :
    IsIdle (transformFixedRef h context).1 := by
  unfold Transform.transformFixedRef
  split
  · exact hi
  · apply hi.withAttrs
    intro entry hentry
    rcases Entries.mem_replace hentry with ⟨hmem, -⟩ | rfl
    · exact hi.attrs entry hmem
    · exact .inr rfl

end Rules

/-! ## All rules -/

def settledHead (h : Head) : Head := (transformFixedRef (fillEmpty h) {}).1

theorem runAfter_step {rule : Rule} {rules : List Rule} {e e' : Element} {context context' : Context}
    (h : rule.after e context = .done (e', context')) :
    runAfter (rule :: rules) e context = runAfter rules e' context' := by
  simp only [runAfter, Edit.each, h, Edit.andThen]

theorem after_ofHead {name : String} {f : Head → Edit Head} {e : Element} {context : Context}
    (h : f e.head = .done e.head) : (Rule.ofHead name f).after e context = .done (e, context) := by
  obtain ⟨head, children, branches⟩ := e
  simp only [Rule.ofHead, h, Edit.map]

def specialTags : List String := ["component", "transition", "template"]

theorem runAfter_idle {e : Element} (hi : IsIdle e.head) (htag : e.head.tag ∉ specialTags)
    (context : Context) :
    ∃ context', runAfter builtinRules e context =
      .done ({ e with head := settledHead e.head }, context') := by
  obtain ⟨head, children, branches⟩ := e
  have hfilled := hi.fillEmpty
  have hsettled : (transformFixedRef (fillEmpty head) context).1 = settledHead head := by
    unfold settledHead transformFixedRef
    split <;> rfl
  have hnamed : IsIdle (settledHead head) := hfilled.transformFixedRef {}
  have hkept : (settledHead head).tag = head.tag := by
    unfold settledHead transformFixedRef
    split <;> rfl
  have hother (tag : String) (hspecial : tag ∈ specialTags) : (settledHead head).tag ≠ tag := by
    rintro rfl
    exact htag (hkept ▸ hspecial)
  have href : refRule.after ⟨fillEmpty head, children, branches⟩ context =
      .done (⟨settledHead head, children, branches⟩,
        (transformFixedRef (fillEmpty head) context).2) := by
    rw [← hsettled]
    simp only [refRule, Rule.ofHeadAndContext, transformRef_idle hfilled, Edit.map]
  refine ⟨(transformFixedRef (fillEmpty head) context).2, ?_⟩
  generalize (transformFixedRef (fillEmpty head) context).2 = named at href ⊢
  -- The rules in front of the fixed name see the filled head, those behind it the settled one.
  have htemplate : templateRule.after ⟨head, children, branches⟩ context = .done (_, _) := rfl
  have hboolean : booleanRule.after ⟨head, children, branches⟩ context =
      .done (⟨fillEmpty head, children, branches⟩, context) := rfl
  have hif : ifRule.after ⟨fillEmpty head, children, branches⟩ context =
      .done (_, _) := after_ofHead (transformConditional_idle hfilled)
  have hfor : forRule.after ⟨fillEmpty head, children, branches⟩ context =
      .done (_, _) := after_ofHead (transformLoop_idle hfilled)
  have hevent : eventRule.after ⟨fillEmpty head, children, branches⟩ context =
      .done (_, _) := after_ofHead (transformListeners_idle hfilled)
  have hmodel : modelRule.after ⟨fillEmpty head, children, branches⟩ context =
      .done (_, _) := after_ofHead (transformModel_idle hfilled)
  have hhtml : htmlRule.after ⟨fillEmpty head, children, branches⟩ context =
      .done (⟨fillEmpty head, children, branches⟩, context) := by
    simp only [htmlRule, Rule.ofElement, transformContent_idle (e := ⟨fillEmpty head, _, _⟩) hfilled,
      Edit.map]
  have hclass : classRule.after ⟨settledHead head, children, branches⟩ named =
      .done (_, _) := after_ofHead (transformClass_idle hnamed)
  have hstyle : styleRule.after ⟨settledHead head, children, branches⟩ named =
      .done (_, _) := after_ofHead (transformStyle_idle hnamed)
  have hbind : bindRule.after ⟨settledHead head, children, branches⟩ named =
      .done (⟨settledHead head, children, branches⟩, named) := by
    simp only [bindRule, Rule.ofHeadAndContext, transformBindings_idle hnamed, Edit.map]
  have htransition : transitionRule.after ⟨settledHead head, children, branches⟩ named =
      .done (⟨settledHead head, children, branches⟩, named) := by
    simp only [transitionRule, Rule.ofElement, transformTransition,
      if_neg (hother "transition" (by decide)), Edit.map]
  have hcomponent : dynamicComponentRule.after ⟨settledHead head, children, branches⟩ named =
      .done (⟨settledHead head, children, branches⟩, named) := by
    simp only [dynamicComponentRule, Rule.ofElement, transformComponent,
      if_neg (hother "component" (by decide)), Edit.map]
  rw [builtinRules, runAfter_step htemplate, runAfter_step hboolean, runAfter_step hif, runAfter_step hfor,
    runAfter_step hevent, runAfter_step hmodel, runAfter_step hhtml, runAfter_step href,
    runAfter_step hclass, runAfter_step hstyle, runAfter_step hbind, runAfter_step htransition,
    runAfter_step hcomponent]
  rfl

end VueToSan.Transform
