import VueToSan.Proofs.PreparedHeads
import VueToSan.Proofs.TranslatableHeads

/-!
# Elements with admitted attributes

What the rules make of an element with safe sources: each of its attributes is a copy, or San finds
nothing inadmissible in it, and so is the code that a transition hands to its first element. The text
that takes the place of the children holds nothing inadmissible either.
-/

namespace VueToSan.Transform

open VueToSan.Text VueToSan.Markup
open VueToSan.San (IsPropertyName IsCodePart keepsAdmitted readBack keepsAdmitted_code)
open VueToSan.Expr (IsSound IsInner IsUnfiltered)

variable {tag name source code : String}

/-! ## Heads without loops and listeners -/

structure IsOpened (g h : Head) : Prop extends IsPlaced g h where
  distinct : h.attrs.keys.Nodup

section Heads

variable {g h : Head} {steps : List Step}

theorem nodup_keys_run (hdistinct : h.attrs.keys.Nodup) (steps : List Step) :
    (h.run steps).attrs.keys.Nodup := by
  induction steps generalizing h with
  | nil => exact hdistinct
  | cons s steps ih =>
    apply ih
    cases s with
    | put old new value => exact Entries.nodup_keys_replace hdistinct
    | set name value => exact Entries.nodup_keys_set hdistinct
    | drop name => exact Entries.nodup_keys_erase hdistinct

theorem IsOpened.run (hh : IsOpened g h) (hsteps : WritesReady g steps) :
    IsOpened g (h.run steps) where
  toIsPlaced := hh.toIsPlaced.run hsteps
  distinct := nodup_keys_run hh.distinct steps

theorem Opening.isOpened (hg : HasSafeSources g) (hdistinct : g.attrs.keys.Nodup)
    (ho : Opening g.extract.1 steps) : IsOpened g ((fillEmpty g.extract.1).run steps) := by
  refine ⟨hg.placed_fillEmpty.run (ho.ready hg), nodup_keys_run ?_ steps⟩
  have hkeys : (fillEmpty g.extract.1).attrs.keys = g.attrs.keys := by
    rw [fillEmpty_attrs, Entries.keys, List.map_map]
    rfl
  rw [hkeys]
  exact hdistinct

/-! ## Content -/

theorem IsOpened.renameHtml {form : String} {wrap : String → String} (hh : IsOpened g h)
    (hform : ∀ value, copied? ("v-" ++ form, value) = some ("v-html", wrap value)) :
    IsOpened g (renameHtml form wrap h) := by
  have hready : ∀ value, h.attr? ("v-" ++ form) = some value → Ready g ("v-html", wrap value) :=
    fun value hvalue => (hh.attrs _ (Entries.mem_of_get? hvalue)).copy _ (hform value)
  have hdirectives : ∀ d ∈ (Transform.renameHtml form wrap h).directives,
      d.name ∈ compiledDirectives → Expr.IsSafeSource d.value ∧
        (g.tag = "transition" → d.name = "html" → IsUnfiltered d.value) := by
    intro d hd hcompiled
    rcases mem_directives_renameHtml hd with hmem | ⟨value, hvalue, heq⟩
    · exact hh.directives d hmem hcompiled
    · have hsource := (hready value hvalue).source (show holdsCode "v-html" = true by decide)
      rw [heq]
      refine ⟨hsource.safe, fun htag _ => hsource.plain ?_⟩
      rw [htag]
      exact show feedsCall "transition" "v-html" = true by decide
  unfold Transform.renameHtml at hdirectives ⊢
  split
  · exact hh
  · rename_i value hvalue
    have hsteps : WritesReady g [.put ("v-" ++ form) "v-html" (wrap value)] :=
      .put (hready value hvalue) (isPlainName_fixed (by decide))
    have hrun := hh.run hsteps
    rw [hvalue] at hdirectives
    exact ⟨⟨hrun.tag, hrun.attrs, hdirectives, hh.bound, hh.fixedStyle⟩, hrun.distinct⟩

theorem IsOpened.plainHtml (hh : IsOpened g h) : IsOpened g (plainHtml h) := by
  have hdangerous : IsOpened g (Transform.renameHtml "dangerous-html" id h) :=
    hh.renameHtml fun _ => rfl
  exact hdangerous.renameHtml fun _ => rfl

theorem IsOpened.content (hh : IsOpened g h) (hcompiled : name ∈ compiledDirectives)
    (hsource : contentSource? h name = some source) (hcode : IsCode source code) :
    IsSound code ∧ (g.tag = "transition" → name = "html" → IsInner code) := by
  unfold contentSource? at hsource
  split at hsource
  · obtain ⟨hvalue, -⟩ := Option.filter_eq_some_iff.1 hsource
    obtain ⟨d, hd, rfl⟩ := Option.map_eq_some_iff.1 hvalue
    have hname : d.name = name := by simpa using List.find?_some hd
    obtain ⟨hsafe, hplain⟩ := hh.directives d (List.mem_of_find?_eq_some hd) (hname ▸ hcompiled)
    exact ⟨isSound_code hcode hsafe, fun htag hhtml =>
      isInner_code hcode hsafe (hplain htag (hname.trans hhtml))⟩
  · cases hsource

theorem IsOpened.transformContent {e x : Element} (hh : IsOpened g e.head)
    (hdone : transformContent e = .done x) :
    IsOpened g x.head ∧ x.branches = e.branches ∧
      (x.children = e.children ∨ x.children = [] ∨
        ∃ code, IsSound code ∧ x.children = [.ofText (interpolate code)]) := by
  obtain ⟨mid, hmid, hx⟩ := transformContent_cases hdone
  have hplain := hh.plainHtml
  obtain ⟨hopened, hbranches, hchildren⟩ : IsOpened g mid.head ∧ mid.branches = e.branches ∧
      (mid.children = e.children ∨ mid.children = []) := by
    rcases hmid with ⟨-, rfl⟩ | ⟨source, code, hsource, hcode, rfl⟩
    · exact ⟨hplain, rfl, .inl rfl⟩
    · obtain ⟨hsound, hinner⟩ := hplain.content (by decide) hsource hcode
      have hready : Ready g ("s-html", interpolate code) :=
        ready_interpolate hsound fun htag => hinner htag rfl
      exact ⟨hplain.run (.put hready (isPlainName_fixed (by decide))), rfl, .inr rfl⟩
  rcases hx with ⟨-, rfl⟩ | ⟨source, code, hsource, hcode, rfl⟩
  · exact ⟨hopened, hbranches, hchildren.imp_right .inl⟩
  · obtain ⟨hsound, -⟩ := hopened.content (by decide) hsource hcode
    exact ⟨hopened.run (.drops ["v-text"]), rfl, .inr (.inr ⟨code, hsound, rfl⟩)⟩

/-! ## Named elements, classes, styles and spreads -/

theorem fixedRefSteps_ready (hh : IsPlaced g h) : WritesReady g (fixedRefSteps h) := by
  unfold fixedRefSteps
  cases hname : fixedRef? h with
  | none => exact .nil
  | some value =>
    obtain ⟨hattr, -⟩ := Option.filter_eq_some_iff.1 hname
    have hready : Ready g ("s-ref", value) :=
      (hh.attrs _ (Entries.mem_of_get? hattr)).copy _ rfl
    exact .put hready (isPlainName_fixed (by decide))

theorem IsPlaced.binding (hh : IsPlaced g h) (hcode : holdsCode name = true)
    (hname : (boundName? name).isSome ∨ name = "v-bind") (hattr : h.attr? name = some source)
    (hsource : IsCode source code) (new : String) : Ready g (new, interpolate code) := by
  have hfor := hh.attr hcode hattr
  refine ready_interpolate (isSound_code hsource hfor.safe) fun htag => ?_
  exact isInner_code hsource hfor.safe (hfor.plain (htag ▸ feedsCall_transition hname))

theorem BoundRefSteps.ready {key : String} (hb : BoundRefSteps h key steps)
    (hkey : key ∈ [":ref", "v-bind:ref"]) (hh : IsPlaced g h) : WritesReady g steps := by
  have hall : ∀ key ∈ [":ref", "v-bind:ref"], holdsCode key = true ∧ (boundName? key).isSome := by
    decide
  rcases hb with ⟨-, rfl⟩ | ⟨source, code, hattr, hcode, rfl⟩
  · exact .nil
  · exact .put (hh.binding (hall key hkey).1 (.inl (hall key hkey).2) hattr hcode "s-ref")
      (isPlainName_fixed (by decide))

theorem SpreadSteps.ready (hs : SpreadSteps h steps) (hh : IsPlaced g h) : WritesReady g steps := by
  rcases hs with ⟨-, rfl⟩ | ⟨source, code, hattr, hcode, rfl⟩
  · exact .nil
  · exact .put (hh.binding (by decide) (.inr rfl) hattr hcode "s-bind") (isPlainName_fixed (by decide))

theorem MergeSteps.ready {parts texts : List String} {helper : String} (hhelper : Expr.isName helper)
    (hname : name = "class" ∨ name = "style") (htexts : ∀ text ∈ texts, IsInner text)
    (hm : MergeSteps name parts (interpolate (helper ++ "(" ++ joinWith ", " texts ++ ")")) steps) :
    WritesReady g steps := by
  have hplain : name ∈ plainNames := by
    rcases hname with rfl | rfl <;> decide
  have hready : Ready g (name, interpolate (helper ++ "(" ++ joinWith ", " texts ++ ")")) :=
    ready_interpolate (Expr.isSound_call hhelper htexts) fun _ => .call hhelper htexts
  obtain ⟨first, hfirst, rfl⟩ := hm
  refine .cons (fun entry hentry => ?_) (.drops parts)
  rcases hfirst with rfl | ⟨anchor, -, rfl⟩
  · obtain rfl := Option.some.inj hentry
    exact ⟨hready, isPlainName_fixed hplain⟩
  · obtain rfl := Option.some.inj hentry
    exact ⟨hready, isPlainName_fixed hplain⟩

theorem ClassSteps.ready (hc : ClassSteps h steps) (hh : IsPlaced g h) : WritesReady g steps := by
  rcases hc with ⟨-, rfl⟩ | ⟨source, code, hsource, hcode, hm⟩
  · exact .nil
  · have hargument := hh.bound source (.inl hsource) code hcode
    have hvalue : mergedClass h code = interpolate ("_mc" ++ "(" ++
        joinWith ", " [Expr.quote ((h.attr? "class").getD ""), code] ++ ")") := by
      simp [mergedClass, joinWith, String.append_assoc]
    rw [hvalue] at hm
    apply hm.ready (by decide) (.inl rfl)
    simpa using ⟨Expr.isInner_quote _, hargument⟩

theorem StyleSteps.ready (hs : StyleSteps h steps) (hh : IsPlaced g h) : WritesReady g steps := by
  rcases hs with ⟨-, -, rfl⟩ | ⟨parts, hparts, hm⟩
  · exact .nil
  · have hvalue : mergedStyle h parts = interpolate ("_ms" ++ "(" ++
        joinWith ", " (h.staticStyle.getD "''" :: parts) ++ ")") := rfl
    rw [hvalue] at hm
    refine hm.ready (by decide) (.inr rfl) (List.forall_mem_cons.2 ⟨?_, ?_⟩)
    · cases hstyle : h.staticStyle with
      | none => exact Expr.isInner_quote ""
      | some style => exact hh.fixedStyle style hstyle
    · intro part hpart
      rcases hparts part hpart with rfl | ⟨source, hsource | hsource, hcode⟩
      · exact Expr.isInner_styleObject []
      · exact hh.bound source (.inr hsource) part hcode
      · obtain ⟨hattr, -⟩ := Option.filter_eq_some_iff.1 hsource
        have hfor := hh.attr (by decide) hattr
        exact isInner_code hcode hfor.safe (hfor.plain (by simp [feedsCall, styleParts]))

/-! ## Bound attributes -/

theorem BindingStep.ready {key : String} {s : Step} (hs : BindingStep h key s)
    (hready : ∀ entry ∈ h.attrs, Ready g entry) (hthere : h.hasAttr key = true)
    (hbound : (boundName? key).isSome) (htarget : ∀ code, IsPropertyName (boundTarget key) ∨
      Copied g (boundTarget key, bindBack code)) :
    ∀ entry ∈ (s.apply h).attrs, Ready g entry := by
  intro entry hentry
  rcases mem_attrs_apply hentry with ⟨hmem, -⟩ | hwritten
  · exact hready entry hmem
  · rw [Head.hasAttr, Entries.has_eq_isSome, Option.isSome_iff_exists] at hthere
    obtain ⟨source, hsource⟩ := hthere
    have hfor := (hready _ (Entries.mem_of_get? hsource)).source (holdsCode_of_bound hbound)
    rcases hs with rfl | ⟨code, hcode, hs⟩
    · cases hwritten
    · rw [Head.attr?, hsource, Option.getD_some] at hcode
      have hsound := isSound_code hcode hfor.safe
      rcases hs with rfl | rfl
      · obtain rfl := Option.some.inj hwritten
        refine ready_interpolate hsound fun htag => isInner_code hcode hfor.safe (hfor.plain ?_)
        rw [htag]
        exact feedsCall_transition (.inl hbound)
      · obtain rfl := Option.some.inj hwritten
        exact ready_bindBack (htarget code) hsound

theorem BindingStep.hasAttr {key other : String} {s : Step} (hs : BindingStep h key s)
    (hne : other ≠ key) (hthere : h.hasAttr other = true) : (s.apply h).hasAttr other = true := by
  rcases hs with rfl | ⟨code, -, rfl | rfl⟩
  · exact Entries.has_erase_of_ne hne hthere
  · exact Entries.has_replace_of_ne hne hthere
  · exact Entries.has_replace_of_ne hne hthere

/-- All bound attributes, one after the other: each key is still there when its turn comes. -/
theorem BindingSteps.ready {keys : List String} (hb : BindingSteps h keys steps)
    (hready : ∀ entry ∈ h.attrs, Ready g entry) (hdistinct : keys.Nodup)
    (hthere : ∀ key ∈ keys, h.hasAttr key = true)
    (hnames : ∀ key ∈ keys, (boundName? key).isSome ∧ ∀ code, IsPropertyName (boundTarget key) ∨
      Copied g (boundTarget key, bindBack code)) :
    ∀ entry ∈ (h.run steps).attrs, Ready g entry := by
  induction hb with
  | nil => exact hready
  | @cons h key keys s steps hs _ ih =>
    rw [List.nodup_cons] at hdistinct
    rw [List.forall_mem_cons] at hthere hnames
    have hnext := hs.ready hready hthere.1 hnames.1.1 hnames.1.2
    refine ih hnext hdistinct.2 (fun other hother => ?_) hnames.2
    have hne : other ≠ key := fun heq => hdistinct.1 (heq ▸ hother)
    exact hs.hasAttr hne (hthere.2 other hother)

theorem IsOpened.bindings (hh : IsOpened g h) (hb : BindingSteps h (boundKeys h) steps) :
    ∀ entry ∈ (h.run steps).attrs, Ready g entry := by
  have hplaced : ∀ key ∈ boundKeys h, ∃ value, Placed g (key, value) ∧ h.hasAttr key = true ∧
      (boundName? key).isSome := by
    intro key hkey
    obtain ⟨⟨value, hvalue⟩, hbound⟩ := mem_boundKeys.1 hkey
    refine ⟨value, hh.attrs _ (Entries.mem_of_get? hvalue), ?_, hbound⟩
    rw [Head.hasAttr, Entries.has_eq_isSome, ← Head.attr?, hvalue]
    rfl
  refine hb.ready (fun entry hentry => (hh.attrs entry hentry).toReady) (hh.distinct.filter _)
    (fun key hkey => ?_) fun key hkey => ?_
  · obtain ⟨value, -, hthere, -⟩ := hplaced key hkey
    exact hthere
  · obtain ⟨value, hentry, -, hbound⟩ := hplaced key hkey
    exact ⟨hbound, hentry.target hbound⟩

theorem Closing.ready (hc : Closing h steps) (hh : IsOpened g h) :
    ∀ entry ∈ (h.run steps).attrs, Ready g entry := by
  obtain ⟨hfirst, hsecond, hclass, hstyle, hspread, hbind⟩ := hc
  have hrefs := ((fixedRefSteps_ready hh.toIsPlaced).append
    (hfirst.ready (by decide) hh.toIsPlaced)).append (hsecond.ready (by decide) hh.toIsPlaced)
  have hclasses := hclass.ready (hh.run hrefs).toIsPlaced
  have hstyles := hstyle.ready (hh.run (hrefs.append hclasses)).toIsPlaced
  have hspreads := hspread.ready (hh.run ((hrefs.append hclasses).append hstyles)).toIsPlaced
  have hopened := hh.run (((hrefs.append hclasses).append hstyles).append hspreads)
  have hready := hopened.bindings hbind
  rwa [← Head.run_append] at hready

end Heads

/-! ## Transitions and components -/

theorem isSound_transitionCode {attrs : Entries String} (h : ∀ entry ∈ attrs,
    Expr.isWord (camelize entry.1) = true ∧ ∀ code ∈ wholeCode? entry.2, IsInner code) :
    IsSound (transitionCode attrs) := by
  have hfields : ∀ field ∈ attrs.map fun entry => transitionField entry.1 entry.2,
      IsInner field := by
    intro field hfield
    obtain ⟨⟨name, value⟩, hentry, rfl⟩ := List.mem_map.1 hfield
    obtain ⟨hword, hargument⟩ := h _ hentry
    have hinner : IsInner ((wholeCode? value).getD (Expr.quote value)) := by
      cases hcode : wholeCode? value with
      | none => exact Expr.isInner_quote value
      | some code => exact hargument code hcode
    have htext : transitionField name value =
        camelize name ++ ":" ++ (wholeCode? value).getD (Expr.quote value) := by
      unfold transitionField wholeCode?
      cases interpolated? value with
      | none => rfl
      | some inner => rfl
    change IsInner (transitionField name value)
    rw [htext]
    exact @IsInner.keyed _ (.name ⟨default, camelize name⟩) _ _ (Expr.plain_word hword)
      (Expr.lexes_word hword false) (Expr.memberName?_wordToken _) hinner
  have hcall : IsSound ("_t" ++ "(" ++ joinWith ", " ["\x7b" ++ joinWith ","
      (attrs.map fun entry => transitionField entry.1 entry.2) ++ "\x7d"] ++ ")") :=
    Expr.isSound_call (by decide) (List.forall_mem_singleton.2 (IsInner.object hfields))
  have heq : transitionCode attrs = "_t" ++ "(" ++ joinWith ", " ["\x7b" ++ joinWith ","
      (attrs.map fun entry => transitionField entry.1 entry.2) ++ "\x7d"] ++ ")" := by
    have hone : ∀ text, joinWith ", " [text] = text := fun _ => rfl
    rw [hone, transitionCode, String.ext_iff]
    simp
  rw [heq]
  exact hcall

theorem transitionCode_kept {g : Head} (htag : g.tag = "transition") {attrs : Entries String}
    (h : ∀ entry ∈ attrs, Ready g entry) :
    Copies g ("s-transition", transitionCode attrs) ∨
      keepsAdmitted "s-transition" (some (readBack (transitionCode attrs))) = true := by
  by_cases hcopies : CopiesOption g attrs
  · exact .inl (.option htag hcopies)
  · refine .inr (keepsAdmitted_code (isSound_transitionCode fun entry hentry => ?_).isCodePart
      (by decide))
    have hentry' : ¬(Expr.isWord (camelize entry.1) = false ∨
        Copied g entry ∧ interpolated? entry.2 ≠ none) := fun hcopied => hcopies ⟨entry, hentry, hcopied⟩
    rw [not_or, Bool.not_eq_false] at hentry'
    refine ⟨hentry'.1, fun code hcode => ?_⟩
    rcases (h entry hentry).spoken.argument htag code hcode with hcopied | hinner
    · refine absurd ⟨hcopied, fun hnone => ?_⟩ hentry'.2
      rw [wholeCode?, hnone] at hcode
      cases hcode
    · exact hinner

/-- A component gets another tag, or it is split by a test that is a copy or in which San finds
nothing inadmissible. -/
theorem transformComponent_split {g : Head} {e e' : Element} (h : transformComponent e = .done e')
    (hattrs : ∀ entry ∈ e.head.attrs, Ready g entry ∧ e.head.tag = g.tag) :
    e' = e ∨ (∃ tag, e' = retag (e.mapHead (·.removeAttr "is")) tag) ∨
      ∃ test consequent alternate, (Copies g ("s-if", test) ∨
          keepsAdmitted "s-if" (some (readBack test)) = true) ∧
        e' = splitByTest (e.mapHead (·.removeAttr "is")) test consequent alternate := by
  unfold transformComponent at h
  split at h
  · rename_i hcomponent
    split at h
    · cases h
      exact .inl rfl
    · rename_i value hvalue
      obtain ⟨hready, hsame⟩ := hattrs _ (Entries.mem_of_get? hvalue)
      rw [hcomponent] at hsame
      dsimp only at h
      split at h
      · cases h
        exact .inr (.inl ⟨_, rfl⟩)
      · rename_i inner hinner
        have hchoice := hready.spoken.choice hsame.symm rfl (String.ofList (trim inner))
          (by simp [wholeCode?, hinner])
        unfold resolveTag at h
        split at h
        · cases h
        · rename_i parsed hparsed
          split at h
          · cases h
          · split at h
            · cases h
              exact .inr (.inl ⟨_, rfl⟩)
            · rename_i hconditional
              split at h
              · cases h
                refine .inr (.inr ⟨_, _, _, ?_, rfl⟩)
                rcases hchoice with hmem | hpart
                · exact .inl (.choice hsame.symm hmem rfl hinner
                    ((Expr.slice_infix _ _).trans (by simpa using trim_part inner)))
                · exact .inr (keepsAdmitted_code
                    (Expr.isCodePart_test hparsed hconditional hpart) (by decide))
              · cases h
            · cases h
  · cases h
    exact .inl rfl

/-! ## Elements -/

/-- Nodes of which all but the elements are of some kind, or the one text that a rule writes. -/
def HoldsTexts (T : Node → Prop) (nodes : List Node) : Prop :=
  (∀ node ∈ nodes, node.element? = none → T node) ∨
    ∃ code, IsSound code ∧ nodes = [.ofText (interpolate code)]

/-- An element with attributes of some kind, or in which San finds nothing inadmissible. -/
structure Speaking (C : String × String → Prop) (T : Node → Prop) (e : Element) : Prop where
  attrs : ∀ entry ∈ e.head.attrs, C entry ∨ keepsAdmitted entry.1 (some (readBack entry.2)) = true
  texts : HoldsTexts T e.children

section Elements

variable {C : String × String → Prop} {T : Node → Prop} {g : Head}

theorem Speaking.setTransition
    (hcode : C ("s-transition", code) ∨ keepsAdmitted "s-transition" (some (readBack code)) = true)
    {e : Element} (he : Speaking C T e) : Speaking C T (setTransition code e) := by
  refine ⟨fun entry hentry => ?_, he.texts⟩
  rcases Entries.mem_set hentry with hmem | rfl
  · exact he.attrs entry hmem
  · exact hcode

theorem leaf_mem_markFirst {node : Node} {nodes : List Node} (hleaf : node.element? = none)
    (h : node ∈ markFirst code nodes) : node ∈ nodes := by
  fun_induction markFirst code nodes with
  | case1 => exact h
  | case2 e rest =>
    rcases List.mem_cons.1 h with rfl | h
    · cases hleaf
    · exact List.mem_cons_of_mem _ h
  | case3 other rest hother ih => exact List.mem_cons.2 ((List.mem_cons.1 h).imp_right ih)

theorem HoldsTexts.markFirst {nodes : List Node} (h : HoldsTexts T nodes) :
    HoldsTexts T (markFirst code nodes) := by
  rcases h with h | ⟨text, htext, rfl⟩
  · exact .inl fun node hmem hleaf => h node (leaf_mem_markFirst hleaf hmem) hleaf
  · exact .inr ⟨text, htext, rfl⟩

/-- A head that only the rules of its tag can still change. -/
structure IsClosed (g : Head) (C : String × String → Prop) (T : Node → Prop) (e : Element) :
    Prop where
  alone : e.branches = []
  attrs : ∀ entry ∈ e.head.attrs, Ready g entry ∧ e.head.tag = g.tag
  elements : ∀ x, .element x ∈ e.children → x.All (Speaking C T)
  texts : HoldsTexts T e.children

theorem IsClosed.all {e : Element} (he : IsClosed g C T e) {head : Head} (hhead : ∀ entry ∈ head.attrs,
    C entry ∨ keepsAdmitted entry.1 (some (readBack entry.2)) = true) :
    Element.All (Speaking C T) { e with head } := by
  rw [he.alone]
  exact .of_children ⟨hhead, he.texts⟩ he.elements

theorem IsClosed.transformTransition (hC : ∀ entry, Copies g entry → C entry) {e : Element}
    (htag : e.head.tag = g.tag) (he : IsClosed g C T e) :
    IsClosed g C T (transformTransition e) := by
  unfold Transform.transformTransition
  split
  · rename_i htransition
    have hcode := (transitionCode_kept (htag.symm.trans htransition) fun entry hentry =>
      (he.attrs entry hentry).1).imp_left (hC _)
    refine ⟨he.alone, fun entry hentry => (by cases hentry), ?_, he.texts.markFirst⟩
    refine markFirst_all (fun x hx => hx.setTransition hcode) (fun x hx => ?_) he.elements
    exact ⟨(hx.setTransition hcode).attrs, hx.texts⟩
  · exact he

theorem IsClosed.transformComponent (hC : ∀ entry, Copies g entry → C entry) {e e' : Element}
    (he : IsClosed g C T e) (h : transformComponent e = .done e') : e'.All (Speaking C T) := by
  have hkept : ∀ entry ∈ e.head.attrs,
      C entry ∨ keepsAdmitted entry.1 (some (readBack entry.2)) = true := fun entry hentry =>
    (he.attrs entry hentry).1.spoken.kept.imp_left fun hcopied => hC entry (.attr hcopied)
  have hset : ∀ name value, C (name, value) ∨ keepsAdmitted name (some (readBack value)) = true →
      ∀ entry ∈ (e.head.attrs.erase "is").set name value,
        C entry ∨ keepsAdmitted entry.1 (some (readBack entry.2)) = true := by
    intro name value hvalue entry hentry
    rcases Entries.mem_set hentry with hmem | rfl
    · exact hkept entry (Entries.mem_erase hmem).1
    · exact hvalue
  rcases transformComponent_split h he.attrs with
    rfl | ⟨tag, rfl⟩ | ⟨test, consequent, alternate, htest, rfl⟩
  · obtain ⟨head, children, branches⟩ := e'
    exact he.all hkept
  · exact he.all fun entry hentry => hkept entry (Entries.mem_erase hentry).1
  · refine .intro ⟨hset "s-if" test (htest.imp_left (hC _)), he.texts⟩ fun x hx => ?_
    rcases splitByTest_part hx with hx | rfl
    · exact he.elements x hx
    · exact .of_children ⟨hset "s-else" "" (.inr (by decide +kernel)), he.texts⟩ he.elements

theorem builtinRules_speaking (hg : HasSafeSources g) (hdistinct : g.attrs.keys.Nodup)
    (hC : ∀ entry, Copies g entry → C entry) {children : List Node}
    (helements : ∀ x, .element x ∈ children → x.All (Speaking C T))
    (htexts : ∀ node ∈ children, node.element? = none → T node)
    {e' : Element} {context context' : Context}
    (h : runAfter builtinRules ⟨g.extract.1, children, []⟩ context = .done (e', context')) :
    e'.All (Speaking C T) := by
  obtain ⟨opening, x, closing, ho, hcontent, hc, hcomponent, -⟩ := builtinRules_steps h
  have hopened : IsOpened g ((fillEmpty g.extract.1).run opening) := ho.isOpened hg hdistinct
  obtain ⟨hx, hbranches, hchildren⟩ := hopened.transformContent hcontent
  have htag : (x.head.run closing).tag = g.tag := by
    rw [Head.run_eq]
    exact hx.tag
  have hwhole : IsClosed g C T { x with head := x.head.run closing } := by
    refine ⟨hbranches, fun entry hentry => ⟨hc.ready hx entry hentry, htag⟩, fun y hy => ?_, ?_⟩
    · rcases hchildren with heq | heq | ⟨code, -, heq⟩ <;> rw [heq] at hy
      · exact helements y hy
      · cases hy
      · simp [Node.ofText] at hy
    · rcases hchildren with heq | heq | hcode
      · exact .inl (heq ▸ htexts)
      · exact .inl (by simp [heq])
      · exact .inr hcode
  exact (hwhole.transformTransition hC htag).transformComponent hC hcomponent

end Elements

end VueToSan.Transform
