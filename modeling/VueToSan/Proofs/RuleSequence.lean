import VueToSan.Proofs.AttributeSteps

/-!
# All rules on one element

The rules in front of the content directives work on the head, and so do those behind them up to the
bound attributes; both groups are lists of steps. A transition and a component come last.
-/

namespace VueToSan.Transform

open VueToSan.Markup

/-- Tests, loops, listeners and models: what is done before the content directives. The head is the
one before its empty attributes are filled. -/
inductive Opening (h : Head) : List Step → Prop
  | intro {first second loop listeners model : List Step}
      (htest : TestSteps h.ifTest "v-if" "s-if" first)
      (hbranch : TestSteps h.elseIfTest "v-else-if" "s-else-if" second)
      (hloop : LoopSteps h loop)
      (hlisteners : List.Forall₂ ListenerStep (listenersOf h) listeners)
      (hmodel : ModelSteps
        ((fillEmpty h).run (first ++ second ++ elseSteps h ++ loop ++ listeners)) model) :
      Opening h (first ++ second ++ elseSteps h ++ loop ++ listeners ++ model)

def OpeningWrites (name : String) : Prop :=
  name ∈ ["s-if", "s-else-if", "s-else", "s-for", "checked", "value"] ∨ ∃ event, name = "on-" ++ event

def OpeningTakes (h : Head) (name : String) : Prop :=
  name ∈ ["v-if", "v-else-if", "v-else", "v-for"] ++ keyAttrs ∨
    name ∈ (listenersOf h).map (·.name) ∨ name ∈ h.directives.map (·.rawName)

theorem Opening.within {h : Head} {steps : List Step} (ho : Opening h steps) :
    Within OpeningWrites (OpeningTakes h) steps := by
  obtain ⟨htest, hbranch, hloop, hlisteners, hmodel⟩ := ho
  rw [Head.run_eq] at hmodel
  refine ((((Within.append ?_ ?_).append ?_).append ?_).append ?_).append ?_
  · exact htest.within.mono (fun _ heq => .inl (by simp [heq])) fun _ heq => .inl (by simp [heq])
  · exact hbranch.within.mono (fun _ heq => .inl (by simp [heq])) fun _ heq => .inl (by simp [heq])
  · exact (elseSteps_within h).mono (fun _ heq => .inl (by simp [heq])) fun _ heq =>
      .inl (by simp [heq])
  · refine hloop.within.mono (fun _ heq => .inl (by simp [heq])) fun name hname => .inl ?_
    rcases List.mem_cons.1 hname with rfl | hname
    · simp
    · exact List.mem_append_right _ hname
  · exact (listeners_within hlisteners).mono (fun _ => .inr) fun _ hname => .inr (.inl hname)
  · refine hmodel.within.mono (fun name hname => .inl ?_) ?_
    · exact List.mem_of_mem_drop (i := 4) hname
    · rintro _ ⟨d, hd, rfl⟩
      exact .inr (.inr (List.mem_map_of_mem (List.mem_of_find?_eq_some hd)))

/-- Named elements, classes, styles and bound attributes: what is done behind the content
directives. -/
inductive Closing (h : Head) : List Step → Prop
  | intro {first second classes styles spread bindings : List Step}
      (hfirst : BoundRefSteps h ":ref" first)
      (hsecond : BoundRefSteps h "v-bind:ref" second)
      (hclass : ClassSteps (h.run (fixedRefSteps h ++ first ++ second)) classes)
      (hstyle : StyleSteps (h.run (fixedRefSteps h ++ first ++ second ++ classes)) styles)
      (hspread : SpreadSteps (h.run (fixedRefSteps h ++ first ++ second ++ classes ++ styles))
        spread)
      (hbind : BindingSteps
        (h.run (fixedRefSteps h ++ first ++ second ++ classes ++ styles ++ spread))
        (boundKeys (h.run (fixedRefSteps h ++ first ++ second ++ classes ++ styles ++ spread)))
        bindings) :
      Closing h (fixedRefSteps h ++ first ++ second ++ classes ++ styles ++ spread ++ bindings)

/-! ## One rule in front of others -/

section Front

variable {name : String} {rules : List Rule} {e e' : Element} {context context' : Context}

theorem runAfter_ofBefore {f : Head → Head}
    (h : runAfter (.ofBefore name f :: rules) e context = .done (e', context')) :
    runAfter rules e context = .done (e', context') := h

theorem runAfter_ofHead {f : Head → Edit Head}
    (h : runAfter (.ofHead name f :: rules) e context = .done (e', context')) :
    ∃ head, f e.head = .done head ∧
      runAfter rules { e with head } context = .done (e', context') := by
  obtain ⟨x, inner, hx, hrest⟩ := runAfter_cons h
  obtain ⟨head, hhead, heq⟩ := Edit.map_eq_done.1 hx
  cases heq
  exact ⟨head, hhead, hrest⟩

theorem runAfter_ofHeadAndContext {f : Head × Context → Edit (Head × Context)}
    (h : runAfter (.ofHeadAndContext name f :: rules) e context = .done (e', context')) :
    ∃ head inner, f (e.head, context) = .done (head, inner) ∧
      runAfter rules { e with head } inner = .done (e', context') := by
  obtain ⟨x, outer, hx, hrest⟩ := runAfter_cons h
  obtain ⟨⟨head, inner⟩, hhead, heq⟩ := Edit.map_eq_done.1 hx
  cases heq
  exact ⟨_, _, hhead, hrest⟩

theorem runAfter_ofElement {f : Element → Edit Element}
    (h : runAfter (.ofElement name f :: rules) e context = .done (e', context')) :
    ∃ x, f e = .done x ∧ runAfter rules x context = .done (e', context') := by
  obtain ⟨y, inner, hy, hrest⟩ := runAfter_cons h
  obtain ⟨x, hx, heq⟩ := Edit.map_eq_done.1 hy
  cases heq
  exact ⟨_, hx, hrest⟩

end Front

/-! ## All rules -/

def openingRules : List Rule :=
  [templateRule, booleanRule, ifRule, forRule, eventRule, modelRule]

def closingRules : List Rule := [refRule, classRule, styleRule, bindRule]

theorem openingRules_steps {e e' : Element} {context context' : Context}
    (h : runAfter openingRules e context = .done (e', context')) :
    ∃ steps, Opening e.head steps ∧ e' = { e with head := (fillEmpty e.head).run steps } ∧
      context' = context := by
  obtain ⟨_, hboolean, h⟩ := runAfter_ofHead (runAfter_ofBefore h)
  cases hboolean
  obtain ⟨_, hif, h⟩ := runAfter_ofHead h
  obtain ⟨first, second, hfirst, hsecond, rfl⟩ := transformConditional_steps hif
  obtain ⟨_, hfor, h⟩ := runAfter_ofHead h
  obtain ⟨loop, hloop, rfl⟩ := transformLoop_steps hfor
  obtain ⟨_, hevent, h⟩ := runAfter_ofHead h
  obtain ⟨listeners, hlisteners, rfl⟩ := transformListeners_steps hevent
  obtain ⟨_, hmodel, h⟩ := runAfter_ofHead h
  obtain ⟨model, hsteps, rfl⟩ := transformModel_steps hmodel
  cases h
  simp only [← Head.run_append] at hloop hlisteners hsteps ⊢
  -- What the rules read of the head besides its attributes is what it was at first.
  rw [Head.run_eq] at hloop hlisteners
  exact ⟨_, .intro hfirst hsecond hloop hlisteners hsteps, rfl, trivial⟩

theorem closingRules_steps {e e' : Element} {context context' : Context}
    (h : runAfter closingRules e context = .done (e', context')) :
    ∃ steps, Closing e.head steps ∧ e' = { e with head := e.head.run steps } ∧
      context'.refs = context.refs ++ fixedRefs e.head ∧ context.errors <+: context'.errors := by
  obtain ⟨_, _, href, h⟩ := runAfter_ofHeadAndContext h
  obtain ⟨⟨first, second, hfirst, hsecond, rfl⟩, hrefs, herrors⟩ := transformRef_steps href
  obtain ⟨_, hclass, h⟩ := runAfter_ofHead h
  obtain ⟨classes, hclasses, rfl⟩ := transformClass_steps hclass
  obtain ⟨_, hstyle, h⟩ := runAfter_ofHead h
  obtain ⟨styles, hstyles, rfl⟩ := transformStyle_steps hstyle
  obtain ⟨_, _, hbind, h⟩ := runAfter_ofHeadAndContext h
  obtain ⟨⟨spread, bindings, hspread, hbindings, rfl⟩, hsame, hgrow⟩ :=
    transformBindings_steps hbind
  cases h
  simp only [← Head.run_append, ← List.append_assoc] at hclasses hstyles hspread hbindings ⊢
  exact ⟨_, .intro hfirst hsecond hclasses hstyles hspread hbindings, rfl, hsame.trans hrefs,
    herrors ▸ hgrow⟩

def headRules : List Rule := openingRules ++ htmlRule :: closingRules

theorem headRules_steps {e e' : Element} {context context' : Context}
    (h : runAfter headRules e context = .done (e', context')) :
    ∃ opening x closing, Opening e.head opening ∧
      transformContent { e with head := (fillEmpty e.head).run opening } = .done x ∧
      Closing x.head closing ∧ e' = { x with head := x.head.run closing } ∧
      context'.refs = context.refs ++ fixedRefs x.head ∧ context.errors <+: context'.errors := by
  obtain ⟨e₁, c₁, hfront, hrest⟩ := runAfter_append h
  obtain ⟨opening, hopening, rfl, rfl⟩ := openingRules_steps hfront
  obtain ⟨x, hcontent, hback⟩ := runAfter_ofElement hrest
  obtain ⟨closing, hclosing, rfl, hcontext⟩ := closingRules_steps hback
  exact ⟨opening, x, closing, hopening, hcontent, hclosing, rfl, hcontext⟩

/-- All that the rules do with an element whose children were walked. -/
theorem builtinRules_steps {e e' : Element} {context context' : Context}
    (h : runAfter builtinRules e context = .done (e', context')) :
    ∃ opening x closing, Opening e.head opening ∧
      transformContent { e with head := (fillEmpty e.head).run opening } = .done x ∧
      Closing x.head closing ∧
      transformComponent (transformTransition { x with head := x.head.run closing }) = .done e' ∧
      context'.refs = context.refs ++ fixedRefs x.head ∧ context.errors <+: context'.errors := by
  have hsplit : builtinRules = headRules ++ [transitionRule, dynamicComponentRule] := rfl
  rw [hsplit] at h
  obtain ⟨e₁, c₁, hhead, hrest⟩ := runAfter_append h
  obtain ⟨opening, x, closing, hopening, hcontent, hclosing, rfl, hcontext⟩ := headRules_steps hhead
  obtain ⟨_, htransition, hrest⟩ := runAfter_ofElement hrest
  cases htransition
  obtain ⟨_, hcomponent, hrest⟩ := runAfter_ofElement hrest
  cases hrest
  exact ⟨opening, x, closing, hopening, hcontent, hclosing, hcomponent, hcontext⟩

end VueToSan.Transform
