import VueToSan.Proofs.AttributeSteps
import VueToSan.Proofs.StructuralCode

/-!
# Listeners

A listener is written under the name of its event alone, with its modifiers in front of the handler.
So of several listeners of one event on an element the last one is kept, and whatever its modifiers
are, they are told apart from the handler when the attribute is read.
-/

namespace VueToSan.Transform

open VueToSan.Text VueToSan.Markup

/-! ## Names of listeners -/

structure Listens (a : Attr) (event : String) (modifiers : List String) : Prop where
  name : ∃ mark ∈ ["@", "v-on:"], a.name = mark ++ joinWith "." (event :: modifiers)
  dotless : ∀ piece ∈ event :: modifiers, '.' ∉ piece.toList

theorem splitOn_of_not_mem {sep : Char} {cs : List Char} (h : sep ∉ cs) :
    splitOn sep cs = [cs] := by
  induction cs with
  | nil => rfl
  | cons c cs ih =>
    rw [List.mem_cons, not_or] at h
    rw [splitOn, if_neg (Ne.symm h.1), ih h.2]

theorem splitOn_append_cons {sep : Char} {cs : List Char} (h : sep ∉ cs) (rest : List Char) :
    splitOn sep (cs ++ sep :: rest) = cs :: splitOn sep rest := by
  induction cs with
  | nil => rw [List.nil_append, splitOn, if_pos rfl]
  | cons c cs ih =>
    rw [List.mem_cons, not_or] at h
    rw [List.cons_append, splitOn, if_neg (Ne.symm h.1), ih h.2]

theorem splitOn_joinWith {first : String} {rest : List String}
    (h : ∀ piece ∈ first :: rest, '.' ∉ piece.toList) :
    splitOn '.' (joinWith "." (first :: rest)).toList = (first :: rest).map (·.toList) := by
  induction rest generalizing first with
  | nil => exact splitOn_of_not_mem (h first (by simp))
  | cons second rest ih =>
    rw [List.forall_mem_cons] at h
    have hjoin : (joinWith "." (first :: second :: rest)).toList =
        first.toList ++ '.' :: (joinWith "." (second :: rest)).toList := by
      simp [joinWith]
    rw [hjoin, splitOn_append_cons h.1, ih h.2]
    rfl

theorem exists_splitOn (sep : Char) (cs : List Char) :
    ∃ first rest, splitOn sep cs = first :: rest ∧ ∀ piece ∈ first :: rest, sep ∉ piece := by
  induction cs with
  | nil => exact ⟨[], [], rfl, by simp⟩
  | cons c cs ih =>
    obtain ⟨first, rest, hsplit, hpieces⟩ := ih
    rw [splitOn, hsplit]
    split
    · exact ⟨[], first :: rest, rfl, List.forall_mem_cons.2 ⟨by simp, hpieces⟩⟩
    · rename_i hc
      rw [List.forall_mem_cons] at hpieces
      refine ⟨c :: first, rest, rfl, List.forall_mem_cons.2 ⟨?_, hpieces.2⟩⟩
      simp [Ne.symm hc, hpieces.1]

theorem joinWith_splitOn {cs first : List Char} {rest : List (List Char)}
    (h : splitOn '.' cs = first :: rest) :
    (joinWith "." ((first :: rest).map String.ofList)).toList = cs := by
  induction cs generalizing first rest with
  | nil =>
    obtain ⟨rfl, rfl⟩ := List.cons.inj h
    rfl
  | cons c cs ih =>
    obtain ⟨next, others, hsplit, -⟩ := exists_splitOn '.' cs
    have hrest := ih hsplit
    rw [splitOn, hsplit] at h
    split at h
    · rename_i hc
      obtain ⟨rfl, rfl⟩ := List.cons.inj h
      simpa [joinWith, hc] using hrest
    · obtain ⟨rfl, rfl⟩ := List.cons.inj h
      cases others with
      | nil => simpa [joinWith] using hrest
      | cons other others => simpa [joinWith] using hrest

namespace Listens

variable {a : Attr} {event : String} {modifiers : List String}

theorem listenerName? (h : Listens a event modifiers) :
    Transform.listenerName? a.name = some (joinWith "." (event :: modifiers)).toList := by
  obtain ⟨⟨mark, hmark, hname⟩, -⟩ := h
  rw [Transform.listenerName?, hname, String.toList_append]
  simp only [List.mem_cons, List.not_mem_nil, or_false] at hmark
  rcases hmark with rfl | rfl <;> simp [stripStart?, List.isPrefixOf]

theorem listenerParts (h : Listens a event modifiers) :
    Transform.listenerParts a = (event, modifiers) := by
  rw [Transform.listenerParts, h.listenerName?, Option.getD_some, splitModifiers,
    splitOn_joinWith h.dotless]
  simp [Function.comp_def]

theorem of_listenerName? (h : (Transform.listenerName? a.name).isSome) :
    Listens a (Transform.listenerParts a).1 (Transform.listenerParts a).2 := by
  obtain ⟨cs, hcs⟩ := Option.isSome_iff_exists.1 h
  obtain ⟨first, rest, hsplit, hpieces⟩ := exists_splitOn '.' cs
  have hparts : Transform.listenerParts a = (String.ofList first, rest.map String.ofList) := by
    rw [Transform.listenerParts, hcs, Option.getD_some, splitModifiers, hsplit]
  have htext : joinWith "." (String.ofList first :: rest.map String.ofList) = String.ofList cs := by
    rw [← String.toList_inj, String.toList_ofList]
    exact joinWith_splitOn hsplit
  rw [hparts]
  refine ⟨?_, fun piece hpiece => ?_⟩
  · rcases Option.or_eq_some_iff.1 (Option.orElse_eq_or.symm.trans hcs) with hat | ⟨-, hon⟩
    · refine ⟨"@", by simp, ?_⟩
      rw [htext, ← String.toList_inj, String.toList_append, String.toList_ofList (l := cs)]
      exact San.stripStart?_eq_some.1 hat
    · refine ⟨"v-on:", by simp, ?_⟩
      rw [htext, ← String.toList_inj, String.toList_append, String.toList_ofList (l := cs)]
      exact San.stripStart?_eq_some.1 hon
  · have hmem : piece ∈ (first :: rest).map String.ofList := hpiece
    obtain ⟨chars, hchars, rfl⟩ := List.mem_map.1 hmem
    rw [String.toList_ofList]
    exact hpieces chars hchars

theorem name_ne (h : Listens a event modifiers) (other : String) : a.name ≠ "on-" ++ other := by
  obtain ⟨⟨mark, hmark, hname⟩, -⟩ := h
  intro heq
  rw [hname, ← String.toList_inj, String.toList_append, String.toList_append] at heq
  simp only [List.mem_cons, List.not_mem_nil, or_false] at hmark
  rcases hmark with rfl | rfl <;> simp at heq

end Listens

/-! ## The last listener of an event -/

def IsHandler (source handler : String) : Prop :=
  allBlank source = true ∧ handler = "_noop" ∨ allBlank source = false ∧ IsCode source handler

theorem ListenerStep.apart {b : Attr} {event : String} {s : Step}
    (hb : (listenerName? b.name).isSome) (hstep : ListenerStep b s)
    (hother : ∀ modifiers, ¬Listens b event modifiers) : s.Apart ("on-" ++ event) := by
  have hlistens := Listens.of_listenerName? hb
  obtain ⟨handler, -, rfl⟩ := hstep
  refine ⟨?_, ?_⟩
  · rintro entry ⟨⟩ heq
    have hevent : (listenerParts b).1 = event := by simpa using heq
    exact hother _ (hevent ▸ hlistens)
  · intro htaken
    exact hlistens.name_ne event (Option.some.inj htaken)

theorem forall₂_append_cons {α β : Type} {R : α → β → Prop} {before behind : List α} {a : α}
    {bs : List β} (h : List.Forall₂ R (before ++ a :: behind) bs) :
    ∃ first b rest, bs = first ++ b :: rest ∧ List.Forall₂ R before first ∧ R a b ∧
      List.Forall₂ R behind rest := by
  induction before generalizing bs with
  | nil =>
    obtain _ | ⟨hab, hrest⟩ := h
    exact ⟨[], _, _, rfl, .nil, hab, hrest⟩
  | cons c before ih =>
    obtain _ | ⟨hcb, hbs⟩ := h
    obtain ⟨first, b, rest, rfl, hfirst, hab, hrest⟩ := ih hbs
    exact ⟨_ :: first, b, rest, rfl, .cons hcb hfirst, hab, hrest⟩

theorem listeners_apart {listeners : List Attr} {steps : List Step} {event : String}
    (hsteps : List.Forall₂ ListenerStep listeners steps)
    (hothers : ∀ b ∈ listeners, (listenerName? b.name).isSome ∧ ∀ ms, ¬Listens b event ms) :
    ∀ s ∈ steps, s.Apart ("on-" ++ event) := by
  induction hsteps with
  | nil => exact List.forall_mem_nil _
  | cons hstep _ ih =>
    rw [List.forall_mem_cons] at hothers
    exact List.forall_mem_cons.2 ⟨hstep.apart hothers.1.1 hothers.1.2, ih hothers.2⟩

/-- Of the listeners of one event the last one is kept, with its modifiers and its handler. -/
theorem transformListeners_last {h h' : Head} (hdone : transformListeners h = .done h')
    {before behind : List Attr} {a : Attr} (hdeclared : h.declared = before ++ a :: behind)
    {event : String} {modifiers : List String} (ha : Listens a event modifiers)
    (hlast : ∀ b ∈ behind, ∀ others, ¬Listens b event others) :
    ∃ handler, IsHandler a.value handler ∧
      h'.attr? ("on-" ++ event) = some (String.join (modifiers.map (· ++ ":")) ++ handler) := by
  obtain ⟨steps, hsteps, rfl⟩ := transformListeners_steps hdone
  have hname : (listenerName? a.name).isSome = true := by
    rw [ha.listenerName?]
    rfl
  rw [listenersOf, hdeclared, List.filter_append, List.filter_cons, if_pos hname] at hsteps
  obtain ⟨first, s, rest, rfl, -, ⟨handler, hhandler, rfl⟩, hrest⟩ := forall₂_append_cons hsteps
  have hapart : ∀ s ∈ rest, s.Apart ("on-" ++ event) := by
    refine listeners_apart hrest fun b hb => ?_
    obtain ⟨hmem, hb⟩ := List.mem_filter.1 hb
    exact ⟨hb, hlast b hmem⟩
  refine ⟨handler, hhandler, ?_⟩
  rw [Head.run_append, Head.run_cons, attr?_run_of_apart hapart, ha.listenerParts]
  exact attr?_apply_of_written rfl

def sampleListener : Attr := ⟨"@click.stop.prevent", "go(1 + 1)", ⟨0, 0⟩⟩

def sampleListeners : Head where
  tag := "button"
  attrs := [("v-on:click", "x"), ("@click.stop.prevent", "go(1 + 1)"), ("v-on:focus", "f"),
    ("@blur", "")]
  declared := [⟨"v-on:click", "x", ⟨0, 0⟩⟩] ++ sampleListener ::
    [⟨"v-on:focus", "f", ⟨0, 0⟩⟩, ⟨"@blur", "", ⟨0, 0⟩⟩]

theorem sampleListener_kept :
    ∃ h' handler, transformListeners sampleListeners = .done h' ∧ IsHandler "go(1 + 1)" handler ∧
      h'.attr? ("on-" ++ "click") =
        some (String.join (["stop", "prevent"].map (· ++ ":")) ++ handler) := by
  have hdone : transformListeners sampleListeners =
      .done (transformListeners sampleListeners).value :=
    Edit.eq_done_of_error? (by decide +kernel)
  have hlistens : Listens sampleListener "click" ["stop", "prevent"] :=
    ⟨⟨"@", by decide, by decide⟩, by decide⟩
  have hlast : ∀ b ∈ [(⟨"v-on:focus", "f", ⟨0, 0⟩⟩ : Attr), ⟨"@blur", "", ⟨0, 0⟩⟩],
      (listenerParts b).1 ≠ "click" := by
    decide
  have hdeclared : sampleListeners.declared = [⟨"v-on:click", "x", ⟨0, 0⟩⟩] ++ sampleListener ::
      [⟨"v-on:focus", "f", ⟨0, 0⟩⟩, ⟨"@blur", "", ⟨0, 0⟩⟩] := rfl
  obtain ⟨handler, hhandler, hattr⟩ := transformListeners_last hdone hdeclared hlistens
    fun b hb others h => hlast b hb (congrArg Prod.fst h.listenerParts)
  exact ⟨_, handler, hdone, hhandler, hattr⟩

def sampleRivals : Head where
  tag := "button"
  attrs := [("@click.stop", "a"), ("@click", "b")]
  declared := [⟨"@click.stop", "a", ⟨0, 0⟩⟩, ⟨"@click", "b", ⟨0, 0⟩⟩]

/-- Nothing is left of a listener when another one of the same event follows. -/
theorem earlier_listener_lost :
    Listens ⟨"@click.stop", "a", ⟨0, 0⟩⟩ "click" ["stop"] ∧ IsHandler "a" "a" ∧
      ∃ h', transformListeners sampleRivals = .done h' ∧ h'.attrs = [("on-click", "b")] := by
  have hcode : (Expr.compile "a").toOption.map (·.text) = some "a" := by
    decide +kernel
  have hattrs : (transformListeners sampleRivals).value.attrs = [("on-click", "b")] := by
    decide +kernel
  obtain ⟨compiled, hcompiled, htext⟩ := Option.map_eq_some_iff.1 hcode
  refine ⟨⟨⟨"@", by decide, by decide⟩, by decide⟩, ?_, _, ?_, hattrs⟩
  · exact .inr ⟨by decide, compiled, toOption_eq_some.1 hcompiled, htext⟩
  · exact Edit.eq_done_of_error? (by decide +kernel)

/-! ## Modifiers that are read -/

theorem readListener_modifiers {modifiers : List String} {code : String}
    (hmodifiers : ∀ m ∈ modifiers, m ≠ "" ∧ ∀ c ∈ m.toList, isLetter c = true)
    (hcode : Framed code.toList) (event : String) (span : Span) :
    San.readListener event (String.join (modifiers.map (· ++ ":")) ++ code) span =
      match Expr.parse code with
      | .ok handler => .ok ⟨event, modifiers, ⟨.expr handler, some code⟩,
          some (String.join (modifiers.map (· ++ ":")) ++ code)⟩
      | .error error => .error ⟨.expression error.fault code, span⟩ := by
  simp only [San.readListener, String.toList_append, spanModifiers_join hmodifiers hcode,
    San.readExprValue, San.readExpr, hcode.trim_eq, String.ofList_toList]
  cases Expr.parse code with
  | ok handler => rfl
  | error error => rfl

/-- Modifiers in front of code are read as they were written, and the handler is the parse of the
code: no part of the code is taken for a modifier. -/
theorem apply_modifiers {modifiers : List String}
    (hmodifiers : ∀ m ∈ modifiers, m ≠ "" ∧ ∀ c ∈ m.toList, isLetter c = true) {source : String}
    {compiled : Expr.Compiled} (hcompile : Expr.compile source = .ok compiled)
    (hcode : compiled.text ≠ "") (event : String) (t : San.Head) (span : Span) :
    t.apply ("on-" ++ event) (some (String.join (modifiers.map (· ++ ":")) ++ compiled.text)) span =
      match Expr.parse compiled.text with
      | .ok handler => .ok { t with listeners := t.listeners ++
          [⟨event, modifiers, ⟨.expr handler, some compiled.text⟩,
            some (String.join (modifiers.map (· ++ ":")) ++ compiled.text)⟩] }
      | .error error => .error ⟨.expression error.fault compiled.text, span⟩ := by
  have hblank : allBlank source = false := by
    rw [Bool.eq_false_iff]
    intro hblank
    rw [compile_blank hblank hcompile] at hcode
    exact hcode rfl
  have hframed := Expr.framed_compile hblank hcompile
  have hon : stripStart? "on-".toList ("on-" ++ event).toList = some event.toList := by
    rw [San.stripStart?_eq_some, String.toList_append]
  simp only [San.Head.apply, hon, String.ofList_toList, Option.getD_some,
    readListener_modifiers hmodifiers hframed]
  cases Expr.parse compiled.text with
  | ok handler => rfl
  | error error => rfl

/-- The handler starts with a word and holds colons, but no part of it is a modifier. -/
theorem sampleHandler_read :
    ∃ compiled handler, Expr.compile "once ? \x7bstop: x\x7d : f(y)" = .ok compiled ∧
      compiled.text = "once?\x7bstop:x\x7d:f(y)" ∧ Expr.parse compiled.text = .ok handler ∧
      ∀ (t : San.Head) span,
        t.apply ("on-" ++ "click")
            (some (String.join (["stop", "once"].map (· ++ ":")) ++ compiled.text)) span =
          .ok { t with listeners := t.listeners ++
            [⟨"click", ["stop", "once"], ⟨.expr handler, some compiled.text⟩,
              some (String.join (["stop", "once"].map (· ++ ":")) ++ compiled.text)⟩] } := by
  have hcompile : (Expr.compile "once ? \x7bstop: x\x7d : f(y)").toOption.map (·.text) =
      some "once?\x7bstop:x\x7d:f(y)" := by
    decide +kernel
  have hparse : (Expr.parse "once?\x7bstop:x\x7d:f(y)").toOption.isSome = true := by
    decide +kernel
  obtain ⟨compiled, hcompiled, htext⟩ := Option.map_eq_some_iff.1 hcompile
  obtain ⟨handler, hhandler⟩ := Option.isSome_iff_exists.1 hparse
  rw [toOption_eq_some] at hcompiled hhandler
  rw [← htext] at hhandler
  refine ⟨compiled, handler, hcompiled, htext, hhandler, fun t span => ?_⟩
  have hmodifiers : ∀ m ∈ ["stop", "once"], m ≠ "" ∧ ∀ c ∈ m.toList, isLetter c = true := by
    have hletters : ["stop", "once"].all (fun m => m != "" && m.toList.all isLetter) = true := by
      decide
    intro m hm
    simpa using List.all_eq_true.1 hletters m hm
  have hread := apply_modifiers hmodifiers hcompiled (by rw [htext]; decide) "click" t span
  rw [hhandler] at hread
  exact hread

end VueToSan.Transform
