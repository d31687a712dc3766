import VueToSan.Proofs.PreparedHeads
import VueToSan.Proofs.SourceKeys
import Mathlib.Data.List.Perm.Subperm

/-!
# The registry of named elements

A fixed `ref` is registered while the template is walked, and the registry is not revised. It lists
the fixed names of the parsed template in the order of the walk, elements below others first. The
elements of the output that have a fixed name are all registered; a choice between two tags writes
one element twice, and its copies count as one. No name is left over in the registry unless its
element was dropped or cleared, or its name did not stay a fixed one.
-/

namespace VueToSan.Markup

open VueToSan.Transform

/-! ## Names in the source and in the output -/

def Head.declaredRef (h : Head) : List Ref := (h.attr? "ref").toList.map fun name => ⟨name, h.isRoot⟩

mutual

def Element.declaredRefs : Element → List Ref
  | ⟨head, children, _⟩ => declaredRefsEach children ++ head.declaredRef

def declaredRefsEach : List Node → List Ref
  | [] => []
  | .element e :: rest => e.declaredRefs ++ declaredRefsEach rest
  | .text _ _ :: rest => declaredRefsEach rest
  | .comment _ _ :: rest => declaredRefsEach rest

end

def Head.fixedName (h : Head) : List String :=
  ((h.attr? "s-ref").filter fun name => (interpolated? name).isNone).toList

mutual

/-- The fixed names of an element and of all below it, else blocks included. The second element of a
choice between two tags stands in a chain whose owner has no test of its own; it is counted if
`copies` says so. -/
def Element.fixedNames (copies : Bool) : Element → List String
  | ⟨head, children, branches⟩ =>
    head.fixedName ++ fixedNamesEach copies children ++
      if copies || head.ifTest.isSome then fixedNamesOfBlocks copies branches else []

def fixedNamesEach (copies : Bool) : List Node → List String
  | [] => []
  | .element e :: rest => e.fixedNames copies ++ fixedNamesEach copies rest
  | .text _ _ :: rest => fixedNamesEach copies rest
  | .comment _ _ :: rest => fixedNamesEach copies rest

def fixedNamesOfBlocks (copies : Bool) : List Branch → List String
  | [] => []
  | ⟨_, .owner⟩ :: rest => fixedNamesOfBlocks copies rest
  | ⟨_, .element e⟩ :: rest => e.fixedNames copies ++ fixedNamesOfBlocks copies rest

end

theorem fixedNamesEach_append (copies : Bool) (nodes nodes' : List Node) :
    fixedNamesEach copies (nodes ++ nodes') =
      fixedNamesEach copies nodes ++ fixedNamesEach copies nodes' := by
  induction nodes with
  | nil => rfl
  | cons node nodes ih =>
    cases node with
    | element e => rw [List.cons_append, fixedNamesEach, fixedNamesEach, ih, List.append_assoc]
    | text content span => rw [List.cons_append, fixedNamesEach, fixedNamesEach, ih]
    | comment content span => rw [List.cons_append, fixedNamesEach, fixedNamesEach, ih]

theorem fixedNamesOfBlocks_append (copies : Bool) (branches branches' : List Branch) :
    fixedNamesOfBlocks copies (branches ++ branches') =
      fixedNamesOfBlocks copies branches ++ fixedNamesOfBlocks copies branches' := by
  induction branches with
  | nil => rfl
  | cons branch branches ih =>
    obtain ⟨test, block⟩ := branch
    cases block with
    | owner => rw [List.cons_append, fixedNamesOfBlocks, fixedNamesOfBlocks, ih]
    | element e =>
      rw [List.cons_append, fixedNamesOfBlocks, fixedNamesOfBlocks, ih, List.append_assoc]

theorem fixedNamesEach_reverse (copies : Bool) (nodes : List Node) :
    (fixedNamesEach copies nodes.reverse).Perm (fixedNamesEach copies nodes) := by
  induction nodes with
  | nil => rfl
  | cons node nodes ih =>
    have hcons : fixedNamesEach copies (node :: nodes) =
        fixedNamesEach copies [node] ++ fixedNamesEach copies nodes :=
      fixedNamesEach_append copies [node] nodes
    rw [List.reverse_cons, fixedNamesEach_append, hcons]
    exact (ih.append_right _).trans List.perm_append_comm

/-! ## Parts of a list of names -/

/-- Names that are among others as often as they occur, and are all of them in the exact case. -/
structure PartOf (exact : Prop) (names others : List String) : Prop where
  sub : names.Subperm others
  all : exact → names.Perm others

namespace PartOf

variable {exact exact' : Prop} {names names' others others' further : List String}

theorem of_perm (h : names.Perm others) : PartOf exact names others := ⟨h.subperm, fun _ => h⟩

theorem mono (h : PartOf exact names others) (himp : exact' → exact) : PartOf exact' names others :=
  ⟨h.sub, fun hexact => h.all (himp hexact)⟩

theorem trans (h : PartOf exact names others) (h' : PartOf exact others further) :
    PartOf exact names further :=
  ⟨h.sub.trans h'.sub, fun hexact => (h.all hexact).trans (h'.all hexact)⟩

theorem append (h : PartOf exact names others) (h' : PartOf exact names' others') :
    PartOf exact (names ++ names') (others ++ others') :=
  ⟨h.sub.append h'.sub, fun hexact => (h.all hexact).append (h'.all hexact)⟩

theorem nil (h : exact → others = []) : PartOf exact [] others :=
  ⟨List.nil_subperm, fun hexact => by rw [h hexact]⟩

end PartOf

/-! ## Chaining siblings -/

def Flaw.dropsElement : Flaw → Bool
  | orphanElse .. => true
  | multipleRoots => true
  | _ => false

def KeepsElements (problems : List Problem) : Prop :=
  ∀ p ∈ problems, p.flaw.dropsElement = false

theorem keepsElements_append {problems more : List Problem} :
    KeepsElements (problems ++ more) ↔ KeepsElements problems ∧ KeepsElements more :=
  List.forall_mem_append

theorem fixedNames_addBranch {e b : Element} (hif : e.head.ifTest.isSome) :
    ((e.addBranch b).fixedNames false).Perm (b.fixedNames false ++ e.fixedNames false) := by
  obtain ⟨head, children, branches⟩ := e
  have hblocks : fixedNamesOfBlocks false
      ((if branches.isEmpty then [⟨head.ifTest, .owner⟩] else branches) ++
        [⟨b.head.elseIfTest, .element b⟩]) =
      fixedNamesOfBlocks false branches ++ b.fixedNames false := by
    rw [fixedNamesOfBlocks_append]
    cases branches with
    | nil => simp [fixedNamesOfBlocks]
    | cons branch branches => simp [fixedNamesOfBlocks]
  rw [Element.addBranch, Element.fixedNames, Element.fixedNames]
  dsimp only at hif ⊢
  rw [hblocks, if_pos (by simpa using hif), if_pos (by simpa using hif), ← List.append_assoc]
  exact List.perm_append_comm

theorem fixedNames_attach (branch : Element) (before : List Node) :
    PartOf (KeepsElements (attach branch before).2) (fixedNamesEach false (attach branch before).1)
      (branch.fixedNames false ++ fixedNamesEach false before) := by
  fun_induction attach branch before with
  | case1 content span before nodes problems hrest hblank ih =>
    rw [hrest] at ih
    exact ih
  | case2 content span before nodes problems hrest hblank ih =>
    rw [hrest] at ih
    exact ih.mono fun hkeeps p hp => hkeeps p (List.mem_cons_of_mem _ hp)
  | case3 content span before ih => exact ih
  | case4 e before hif =>
    apply PartOf.of_perm
    rw [fixedNamesEach, fixedNamesEach, ← List.append_assoc]
    exact (fixedNames_addBranch hif).append_right _
  | case5 e before hif =>
    refine ⟨(List.sublist_append_right _ _).subperm, fun hkeeps => ?_⟩
    cases hkeeps _ List.mem_cons_self
  | case6 => exact ⟨List.nil_subperm, fun hkeeps => by cases hkeeps _ List.mem_cons_self⟩

theorem fixedNames_chainOnto (done nodes : List Node) :
    PartOf (KeepsElements (chainOnto done nodes).2) (fixedNamesEach false (chainOnto done nodes).1)
      (fixedNamesEach false done ++ fixedNamesEach false nodes) := by
  induction nodes generalizing done with
  | nil =>
    apply PartOf.of_perm
    rw [chainOnto, fixedNamesEach, List.append_nil]
    exact fixedNamesEach_reverse false done
  | cons node rest ih =>
    cases node with
    | element e =>
      have hperm : (e.fixedNames false ++ fixedNamesEach false done ++ fixedNamesEach false rest).Perm
          (fixedNamesEach false done ++ fixedNamesEach false (.element e :: rest)) := by
        rw [fixedNamesEach, ← List.append_assoc]
        exact List.perm_append_comm.append_right _
      simp only [chainOnto]
      split
      · have hattach := fixedNames_attach e done
        dsimp only
        refine PartOf.trans (ih _ |>.mono fun hkeeps => (keepsElements_append.1 hkeeps).2) ?_
        refine PartOf.trans ?_ (.of_perm hperm)
        exact (hattach.mono fun hkeeps => (keepsElements_append.1 hkeeps).1).append (.of_perm .rfl)
      · exact (ih _).trans (.of_perm hperm)
    | text content span => exact ih _
    | comment content span => exact ih _

theorem fixedNames_chain (nodes : List Node) :
    PartOf (KeepsElements (chain nodes).2) (fixedNamesEach false (chain nodes).1)
      (fixedNamesEach false nodes) := fixedNames_chainOnto [] nodes

end VueToSan.Markup

namespace VueToSan.Transform

open VueToSan.Markup VueToSan.Text

/-! ## The name of one element -/

section Element

variable {g : Head} {opening closing : List Step}

theorem interpolated?_interpolate (code : String) : (interpolated? (interpolate code)).isSome := by
  have hend : (interpolate code).toList =
      '{' :: '{' :: (' ' :: code.toList ++ [' ', '}', '}']) := by
    rw [interpolate, String.toList_append, String.toList_append]
    rfl
  unfold interpolated?
  rw [hend]
  simp

theorem rawName_head {a : Attr} {d : Directive} (h : a.directive? = some d) :
    d.rawName.toList.head? = some 'v' := by
  rw [(directive?_eq_some h).1]
  unfold Attr.directive? at h
  split at h
  · cases h
  · rename_i rest hrest
    rw [San.stripStart?_eq_some.1 hrest]
    rfl

theorem Opening.apart (ho : Opening g.extract.1 opening) {name : String}
    (hname : name = "ref" ∨ name = "s-ref") : ∀ s ∈ opening, s.Apart name := by
  have hhead : name.toList.head? ≠ some 'o' ∧ name.toList.head? ≠ some 'v' := by
    rcases hname with rfl | rfl <;> decide
  apply ho.within.apart
  · rintro (hmem | ⟨event, rfl⟩)
    · rcases hname with rfl | rfl <;> revert hmem <;> decide
    · exact hhead.1 (by rw [String.toList_append]; rfl)
  · rintro (hmem | hmem | hmem)
    · rcases hname with rfl | rfl <;> revert hmem <;> decide
    · obtain ⟨a, ha, rfl⟩ := List.mem_map.1 hmem
      have hlistener := (List.mem_filter.1 ha).2
      rcases hname with hname | hname <;> rw [hname] at hlistener <;> revert hlistener <;> decide
    · obtain ⟨d, hd, rfl⟩ := List.mem_map.1 hmem
      obtain ⟨a, -, ha⟩ := List.mem_filterMap.1 hd
      exact hhead.2 (rawName_head ha)

theorem transformContent_attr? {e x : Element} (hdone : transformContent e = .done x) {name : String}
    (hname : name ∉ ["v-html", "v-safe-html", "v-dangerous-html", "s-html", "v-text"]) :
    x.head.attr? name = e.head.attr? name := by
  simp only [List.mem_cons, List.not_mem_nil, or_false, not_or] at hname
  obtain ⟨hhtml, hsafe, hdangerous, hshtml, htext⟩ := hname
  have hplain : (plainHtml e.head).attr? name = e.head.attr? name := by
    rw [plainHtml, attr?_renameHtml "safe-html" _ _ hhtml hsafe,
      attr?_renameHtml "dangerous-html" _ _ hhtml hdangerous]
  obtain ⟨mid, hmid, hx⟩ := transformContent_cases hdone
  have hmid : mid.head.attr? name = e.head.attr? name := by
    rcases hmid with ⟨-, rfl⟩ | ⟨_, _, -, -, rfl⟩
    · exact hplain
    · exact (Entries.get?_replace_of_ne hhtml hshtml).trans hplain
  rcases hx with ⟨-, rfl⟩ | ⟨_, _, -, -, rfl⟩
  · exact hmid
  · refine Eq.trans ?_ hmid
    rw [Step.apply, Head.removeAttr, Head.attr?, Entries.get?_erase, if_neg htext]
    rfl

theorem attr?_ref_opened (ho : Opening g.extract.1 opening) {children : List Node} {x : Element}
    (hcontent : transformContent ⟨(fillEmpty g.extract.1).run opening, children, []⟩ = .done x)
    (hfilled : g.attr? "ref" ≠ some "") (hnone : g.attr? "s-ref" = none) :
    fixedRef? x.head = g.attr? "ref" ∧ x.head.attr? "s-ref" = none := by
  have hattr : ∀ name, name = "ref" ∨ name = "s-ref" →
      x.head.attr? name = (g.attr? name).map (filledValue g.tag name) := by
    intro name hname
    rw [transformContent_attr? hcontent (by rcases hname with rfl | rfl <;> decide),
      attr?_run_of_apart (ho.apart hname), attr?_fillEmpty]
    rfl
  rw [fixedRef?, hattr "ref" (.inl rfl), hattr "s-ref" (.inr rfl), hnone]
  refine ⟨?_, rfl⟩
  cases href : g.attr? "ref" with
  | none => rfl
  | some name =>
    have hne : name ≠ "" := fun heq => hfilled (heq ▸ href)
    rw [Option.map_some, filledValue_of_ne_empty hne, Option.filter_some_pos (by simpa using hne)]

theorem fixedName_fixedRefSteps {h : Head} (hnone : h.attr? "s-ref" = none) :
    PartOf (∀ name, fixedRef? h = some name → interpolated? name = none)
      (h.run (fixedRefSteps h)).fixedName (fixedRef? h).toList := by
  rw [Head.fixedName, fixedRefSteps]
  cases href : fixedRef? h with
  | none =>
    rw [Option.toList_none, List.map_nil, Head.run_nil, hnone]
    exact .nil fun _ => rfl
  | some name =>
    have hput : (h.run [.put "ref" "s-ref" name]).attr? "s-ref" = some name :=
      attr?_apply_of_written (h := h) (s := .put "ref" "s-ref" name) rfl
    rw [Option.toList_some, List.map_cons, List.map_nil, hput]
    cases hname : interpolated? name with
    | none =>
      rw [Option.filter_some_pos (by rw [hname]; rfl)]
      exact .of_perm .rfl
    | some code =>
      rw [Option.filter_some_neg (by rw [hname]; simp)]
      refine .nil fun hexact => ?_
      rw [hexact name rfl] at hname
      cases hname

theorem fixedName_computed (h : Head) (steps : List Step) (key code : String) :
    (h.run (steps ++ [.put key "s-ref" (interpolate code)])).fixedName = [] := by
  obtain ⟨cs, hcs⟩ := Option.isSome_iff_exists.1 (interpolated?_interpolate code)
  rw [Head.fixedName, Head.run_append, Head.run_cons, Head.run_nil, attr?_apply_of_written rfl]
  simp [Option.filter, hcs]

theorem Closing.attr?_ref {h : Head} (hc : Closing h closing)
    (htarget : ∀ key value, (boundName? key).isSome → h.attr? key = some value →
      boundTarget key ≠ "s-ref") :
    ∃ first second, BoundRefSteps h ":ref" first ∧ BoundRefSteps h "v-bind:ref" second ∧
      (h.run closing).attr? "s-ref" =
        (h.run (fixedRefSteps h ++ first ++ second)).attr? "s-ref" := by
  obtain ⟨hfirst, hsecond, hclass, hstyle, hspread, hbind⟩ := hc
  rename_i first second classes styles spread bindings
  have hbound : ∀ s ∈ bindings, s.Apart "s-ref" := by
    apply hbind.within.apart
    · rintro ⟨key, hkey, heq⟩
      obtain ⟨⟨value, hvalue⟩, hname⟩ := mem_boundKeys.1 hkey
      have hfront := frontSteps_plain hfirst hsecond hclass hstyle hspread
      have hattr := (attr?_of_plain hfront (isSourceKey_bound hname) hvalue).1
      exact htarget key value hname hattr heq.symm
    · intro hkey
      have hname := (mem_boundKeys.1 hkey).2
      revert hname
      decide
  refine ⟨first, second, hfirst, hsecond, ?_⟩
  rw [Head.run_append, attr?_run_of_apart hbound, Head.run_append,
    attr?_run_of_apart (hspread.within.apart (by decide) (by decide)), Head.run_append,
    attr?_run_of_apart (hstyle.within.apart (by decide) (by decide)), Head.run_append,
    attr?_run_of_apart (hclass.within.apart (by decide) (by decide))]

theorem Closing.fixedName {h : Head} (hc : Closing h closing) (hnone : h.attr? "s-ref" = none)
    (htarget : ∀ key value, (boundName? key).isSome → h.attr? key = some value →
      boundTarget key ≠ "s-ref") :
    PartOf (∀ name, fixedRef? h = some name → interpolated? name = none ∧
        h.attr? ":ref" = none ∧ h.attr? "v-bind:ref" = none)
      (h.run closing).fixedName (fixedRef? h).toList := by
  obtain ⟨first, second, hfirst, hsecond, hattr⟩ := hc.attr?_ref htarget
  have hsame : (h.run closing).fixedName =
      (h.run (fixedRefSteps h ++ first ++ second)).fixedName := by
    rw [Head.fixedName, Head.fixedName, hattr]
  rw [hsame]
  rcases hsecond with ⟨-, rfl⟩ | ⟨source, code, hsource, -, rfl⟩
  · rcases hfirst with ⟨-, rfl⟩ | ⟨source, code, hsource, -, rfl⟩
    · rw [List.append_nil, List.append_nil]
      exact (fixedName_fixedRefSteps hnone).mono fun hexact name href => (hexact name href).1
    · rw [List.append_nil, fixedName_computed]
      refine .nil fun hexact => ?_
      cases href : fixedRef? h with
      | none => rfl
      | some name => simp [(hexact name href).2.1] at hsource
  · rw [fixedName_computed]
    refine .nil fun hexact => ?_
    cases href : fixedRef? h with
    | none => rfl
    | some name => simp [(hexact name href).2.2] at hsource

/-! ## Content, transitions and components -/

def contentAttrs : List String := ["v-html", "v-text", "v-safe-html", "v-dangerous-html"]

theorem content_of_plainHtml {h : Head} {value : String}
    (hattr : (plainHtml h).attr? "v-html" = some value) :
    ∃ name ∈ contentAttrs, (h.attr? name).isSome := by
  cases hsafe : h.attr? "v-safe-html" with
  | some v => exact ⟨"v-safe-html", by decide, by rw [hsafe]; rfl⟩
  | none =>
    cases hdangerous : h.attr? "v-dangerous-html" with
    | some v => exact ⟨"v-dangerous-html", by decide, by rw [hdangerous]; rfl⟩
    | none =>
      have hsame : renameHtml "dangerous-html" id h = h := by
        unfold renameHtml
        rw [show "v-" ++ "dangerous-html" = "v-dangerous-html" from rfl, hdangerous]
      rw [plainHtml, hsame, renameHtml, show "v-" ++ "safe-html" = "v-safe-html" from rfl,
        hsafe] at hattr
      exact ⟨"v-html", by decide, by rw [hattr]; rfl⟩

theorem transformContent_children {e x : Element} (hdone : transformContent e = .done x) :
    x.branches = e.branches ∧ (x.children = e.children ∨
      (∃ name ∈ contentAttrs, (e.head.attr? name).isSome) ∧ fixedNamesEach false x.children = []) := by
  have hsource : ∀ {h : Head} {name source : String}, contentSource? h name = some source →
      ∃ value, h.attr? ("v-" ++ name) = some value := by
    intro h name source hsource
    rw [contentSource?, Option.ite_none_right_eq_some] at hsource
    rw [← Option.isSome_iff_exists, Head.attr?, ← Entries.has_eq_isSome]
    exact hsource.1
  obtain ⟨mid, hmid, hx⟩ := transformContent_cases hdone
  obtain ⟨hbranches, hchildren⟩ : mid.branches = e.branches ∧ (mid.children = e.children ∨
      (∃ name ∈ contentAttrs, (e.head.attr? name).isSome) ∧ mid.children = []) := by
    rcases hmid with ⟨-, rfl⟩ | ⟨source, code, hhtml, -, rfl⟩
    · exact ⟨rfl, .inl rfl⟩
    · obtain ⟨value, hvalue⟩ := hsource hhtml
      exact ⟨rfl, .inr ⟨content_of_plainHtml hvalue, rfl⟩⟩
  rcases hx with ⟨-, rfl⟩ | ⟨source, code, htext, -, rfl⟩
  · refine ⟨hbranches, hchildren.imp_right fun hreplaced => ⟨hreplaced.1, ?_⟩⟩
    rw [hreplaced.2]
    rfl
  · obtain ⟨value, hvalue⟩ := hsource htext
    have hplain : (plainHtml e.head).attr? "v-text" = some value := by
      rcases hmid with ⟨-, rfl⟩ | ⟨_, _, -, -, rfl⟩
      · exact hvalue
      · exact (attr?_of_plainStep (.put (by decide)) (by decide) hvalue).1
    have hattr := (attr?_of_plainHtml (by decide) hplain).1
    exact ⟨rfl, .inr ⟨⟨"v-text", by decide, by rw [hattr]; rfl⟩, rfl⟩⟩

theorem fixedNames_of_alone {e : Element} (h : e.branches = []) :
    e.fixedNames false = e.head.fixedName ++ fixedNamesEach false e.children := by
  obtain ⟨head, children, branches⟩ := e
  cases h
  rw [Element.fixedNames, fixedNamesOfBlocks, ite_self, List.append_nil]

theorem fixedName_setAttr {h : Head} {name value : String} (hne : name ≠ "s-ref") :
    (h.setAttr name value).fixedName = h.fixedName := by
  rw [Head.fixedName, Head.setAttr, Head.attr?, Entries.get?_set_of_ne (Ne.symm hne)]
  rfl

theorem fixedNames_setTransition (code : String) (e : Element) :
    (setTransition code e).fixedNames false = e.fixedNames false := by
  obtain ⟨head, children, branches⟩ := e
  rw [setTransition, Element.mapHead, Element.fixedNames, Element.fixedNames,
    fixedName_setAttr (by decide)]
  rfl

theorem fixedNames_markTransition (code : String) (e : Element) :
    (markTransition code e).fixedNames false = e.fixedNames false := by
  obtain ⟨head, children, branches⟩ := e
  have hblocks : fixedNamesOfBlocks false (markTransition code ⟨head, children, branches⟩).branches =
      fixedNamesOfBlocks false branches := by
    induction branches with
    | nil => rfl
    | cons branch branches ih =>
      obtain ⟨test, block⟩ := branch
      cases block with
      | owner => exact ih
      | element b => exact congrArg₂ (· ++ ·) (fixedNames_setTransition code b) ih
  have hhead : (head.setAttr "s-transition" code).fixedName = head.fixedName :=
    fixedName_setAttr (by decide)
  rw [Element.fixedNames, ← hblocks, ← hhead]
  rfl

theorem fixedNames_markFirst (code : String) (nodes : List Node) :
    fixedNamesEach false (markFirst code nodes) = fixedNamesEach false nodes := by
  fun_induction markFirst code nodes with
  | case1 => rfl
  | case2 e rest => rw [fixedNamesEach, fixedNamesEach, fixedNames_markTransition]
  | case3 node rest hnode ih =>
    cases node with
    | element e => exact absurd rfl (hnode e)
    | text content span => exact ih
    | comment content span => exact ih

theorem fixedNames_transformTransition {e : Element} (h : e.branches = []) :
    PartOf (e.head.fixedName = [] ∨ e.head.tag ≠ "transition")
      ((transformTransition e).fixedNames false) (e.fixedNames false) := by
  unfold transformTransition
  split
  · rename_i htag
    have hmarked := fixedNames_of_alone (e := ⟨{ e.head with tag := fragmentTag, attrs := [] },
      markFirst (transitionCode e.head.attrs) e.children, e.branches⟩) h
    rw [hmarked, fixedNames_of_alone h, fixedNames_markFirst]
    exact PartOf.append (.nil fun hexact => hexact.resolve_right fun hne => hne htag) (.of_perm .rfl)
  · exact .of_perm .rfl

/-- A component keeps all names; the copy that a choice makes does not count. -/
theorem fixedNames_transformComponent {e e' : Element} (h : e.branches = [])
    (hdone : transformComponent e = .done e') : e'.fixedNames false = e.fixedNames false := by
  have hbare : (e.head.removeAttr "is").fixedName = e.head.fixedName := by
    rw [Head.fixedName, Head.removeAttr, Head.attr?, Entries.get?_erase, if_neg (by decide)]
    rfl
  rcases transformComponent_cases hdone with rfl | ⟨tag, rfl⟩ |
    ⟨test, consequent, alternate, hconditional, rfl⟩
  · rfl
  · have hretagged := fixedNames_of_alone (e := retag (e.mapHead (·.removeAttr "is")) tag) h
    rw [hretagged, fixedNames_of_alone h, ← hbare]
    rfl
  · have hif : e.head.ifTest = none := by
      rw [Head.isConditional, Bool.or_eq_false_iff, Bool.or_eq_false_iff] at hconditional
      simpa using hconditional.1.1
    rw [fixedNames_of_alone h, ← hbare, splitByTest, Element.fixedNames, fixedName_setAttr (by decide)]
    rw [if_neg (by simpa [Head.setAttr, Element.mapHead, Head.removeAttr] using hif), List.append_nil]
    rfl

/-! ## All rules -/

def Unwritten (h : Head) : Prop :=
  ∀ key ∈ h.attrs.keys, key ≠ "s-ref" ∧ boundTarget key ≠ "s-ref"

/-- The fixed name of an element, if it has one, is no interpolation, and neither a computed name nor
a transition takes it away. -/
def KeepsName (h : Head) : Prop :=
  ∀ name ∈ h.attr? "ref", interpolated? name = none ∧ h.attr? ":ref" = none ∧
    h.attr? "v-bind:ref" = none ∧ h.tag ≠ "transition"

instance (h : Head) : Decidable (Unwritten h) :=
  inferInstanceAs (Decidable (∀ key ∈ h.attrs.keys, _))

instance (h : Head) : Decidable (KeepsName h) :=
  inferInstanceAs (Decidable (∀ name ∈ h.attr? "ref", _))

theorem mem_keys_of_attr? {h : Head} {name value : String} (hattr : h.attr? name = some value) :
    name ∈ h.attrs.keys := List.mem_map.2 ⟨_, Entries.mem_of_get? hattr, rfl⟩

theorem Opening.attr?_before (ho : Opening g.extract.1 opening) {key value : String}
    (hkey : isSourceKey key) (hattr : ((fillEmpty g.extract.1).run opening).attr? key = some value) :
    ∃ v, g.attr? key = some v := by
  have hfilled := (attr?_of_plain ho.plain hkey hattr).1
  rw [attr?_fillEmpty, Option.map_eq_some_iff] at hfilled
  obtain ⟨v, hv, -⟩ := hfilled
  exact ⟨v, hv⟩

theorem attr?_before_closing (ho : Opening g.extract.1 opening) {children : List Node} {x : Element}
    (hcontent : transformContent ⟨(fillEmpty g.extract.1).run opening, children, []⟩ = .done x)
    {key value : String} (hkey : isSourceKey key) (hne : key ≠ "v-html")
    (hattr : x.head.attr? key = some value) : ∃ v, g.attr? key = some v :=
  have hplain := (transformContent_key hcontent hkey hattr).1
  ho.attr?_before hkey (attr?_of_plainHtml hne hplain).1

theorem fixedNames_transformContent (ho : Opening g.extract.1 opening) {children : List Node}
    {x : Element}
    (hcontent : transformContent ⟨(fillEmpty g.extract.1).run opening, children, []⟩ = .done x) :
    PartOf ((∃ name ∈ contentAttrs, g.hasAttr name) → fixedNamesEach false children = [])
      (fixedNamesEach false x.children) (fixedNamesEach false children) := by
  rcases (transformContent_children hcontent).2 with heq | ⟨⟨name, hname, hattr⟩, hnil⟩
  · rw [heq]
    exact .of_perm .rfl
  · rw [hnil]
    refine .nil fun hexact => hexact ⟨name, hname, ?_⟩
    have hkeys : ∀ name ∈ contentAttrs, isSourceKey name := by decide
    obtain ⟨value, hvalue⟩ := Option.isSome_iff_exists.1 hattr
    rw [Head.hasAttr, Entries.has_eq_isSome, Option.isSome_iff_exists]
    exact ho.attr?_before (hkeys name hname) hvalue

theorem fixedName_closed (hfilled : g.attr? "ref" ≠ some "") (hfree : Unwritten g)
    (ho : Opening g.extract.1 opening) {children : List Node} {x : Element}
    (hcontent : transformContent ⟨(fillEmpty g.extract.1).run opening, children, []⟩ = .done x)
    (hc : Closing x.head closing) :
    fixedRef? x.head = g.attr? "ref" ∧
      PartOf (KeepsName g) (x.head.run closing).fixedName (g.attr? "ref").toList := by
  have hnone : g.attr? "s-ref" = none := by
    cases hattr : g.attr? "s-ref" with
    | none => rfl
    | some value => exact absurd rfl (hfree "s-ref" (mem_keys_of_attr? hattr)).1
  obtain ⟨hfixed, hunset⟩ := attr?_ref_opened ho hcontent hfilled hnone
  have htarget : ∀ key value, (boundName? key).isSome → x.head.attr? key = some value →
      boundTarget key ≠ "s-ref" := by
    intro key value hbound hattr heq
    have hne : key ≠ "v-html" := by
      rintro rfl
      cases hbound
    obtain ⟨v, hv⟩ := attr?_before_closing ho hcontent (isSourceKey_bound hbound) hne hattr
    exact (hfree key (mem_keys_of_attr? hv)).2 heq
  -- No rule in front writes a bound name, so it would have been declared.
  have hunbound : ∀ key, key = ":ref" ∨ key = "v-bind:ref" → g.attr? key = none →
      x.head.attr? key = none := by
    intro key hkey hgone
    have hsource : isSourceKey key ∧ key ≠ "v-html" := by rcases hkey with rfl | rfl <;> decide
    rw [← Option.not_isSome_iff_eq_none, Option.isSome_iff_exists]
    rintro ⟨value, hvalue⟩
    obtain ⟨v, hv⟩ := attr?_before_closing ho hcontent hsource.1 hsource.2 hvalue
    rw [hgone] at hv
    cases hv
  have hname := hc.fixedName hunset htarget
  rw [hfixed] at hname
  refine ⟨hfixed, hname.mono fun hkeeps name href => ?_⟩
  obtain ⟨hplain, hfirst, hsecond, -⟩ := hkeeps name href
  exact ⟨hplain, hunbound _ (.inl rfl) hfirst, hunbound _ (.inr rfl) hsecond⟩

/-- The rules register the fixed name of an element. They keep it, and the names below it, unless the
name is taken away or a content directive replaces the children. -/
theorem builtinRules_refs (hfilled : g.attr? "ref" ≠ some "") (hfree : Unwritten g)
    {children : List Node} {e' : Element} {context context' : Context}
    (h : runAfter builtinRules ⟨g.extract.1, children, []⟩ context = .done (e', context')) :
    context'.refs = context.refs ++ g.declaredRef ∧ context.errors <+: context'.errors ∧
      PartOf (KeepsName g ∧ ((∃ name ∈ contentAttrs, g.hasAttr name) →
          fixedNamesEach false children = []))
        (e'.fixedNames false) (fixedNamesEach false children ++ (g.attr? "ref").toList) := by
  obtain ⟨opening, x, closing, ho, hcontent, hc, hcomponent, hrefs, herrors⟩ := builtinRules_steps h
  obtain ⟨hfixed, hname⟩ := fixedName_closed hfilled hfree ho hcontent hc
  obtain ⟨htag, hparent⟩ : x.head.tag = g.tag ∧ x.head.parent = g.parent := by
    rw [transformContent_head hcontent, Head.run_eq]
    exact ⟨rfl, rfl⟩
  have hbranches : x.branches = [] := (transformContent_children hcontent).1
  have hbelow := fixedNames_transformContent ho hcontent
  refine ⟨?_, herrors, ?_⟩
  · rw [hrefs, fixedRefs, hfixed, Head.isRoot, hparent]
    rfl
  · have halone : (transformTransition { x with head := x.head.run closing }).branches = [] := by
      unfold transformTransition
      split <;> exact hbranches
    have htransition := fixedNames_transformTransition
      (e := { x with head := x.head.run closing }) hbranches
    have hnames := fixedNames_of_alone (e := { x with head := x.head.run closing }) hbranches
    rw [fixedNames_transformComponent halone hcomponent]
    -- A transition takes the name away only from elements that have one.
    refine (htransition.mono ?_).trans ?_
    · rintro ⟨hkeeps, -⟩
      cases href : g.attr? "ref" with
      | none =>
        rw [href] at hname
        exact .inl (List.subperm_nil.1 hname.sub)
      | some name =>
        right
        rw [Head.run_eq]
        exact htag ▸ (hkeeps name href).2.2.2
    · rw [hnames]
      refine PartOf.trans ?_ (.of_perm List.perm_append_comm)
      exact (hname.mono And.left).append (hbelow.mono And.right)

end Element

end VueToSan.Transform

namespace VueToSan

open VueToSan.Markup VueToSan.Transform

/-! ## The walk -/

/-- An element of a source in which every name has a text and no name is written already. -/
structure Options.Names (o : Options) (e : Element) : Prop where
  filled : e.head.attr? "ref" ≠ some ""
  unwritten : Unwritten (o.prepare e.head)

structure Options.KeepsNames (o : Options) (e : Element) : Prop where
  own : KeepsName (o.prepare e.head)
  below : (∃ name ∈ contentAttrs, (o.prepare e.head).hasAttr name) → declaredRefsEach e.children = []

instance (o : Options) (e : Element) : Decidable (o.Names e) :=
  decidable_of_iff (e.head.attr? "ref" ≠ some "" ∧ Unwritten (o.prepare e.head))
    ⟨fun h => ⟨h.1, h.2⟩, fun h => ⟨h.1, h.2⟩⟩

instance (o : Options) (e : Element) : Decidable (o.KeepsNames e) :=
  decidable_of_iff (KeepsName (o.prepare e.head) ∧
      ((∃ name ∈ contentAttrs, (o.prepare e.head).hasAttr name) →
        (declaredRefsEach e.children).isEmpty))
    ⟨fun h => ⟨h.1, fun hc => List.isEmpty_iff.1 (h.2 hc)⟩,
      fun h => ⟨h.1, fun hc => List.isEmpty_iff.2 (h.2 hc)⟩⟩

section Walk

variable {o : Options}

theorem prepare_ref {h : Head} (hattrs : h.attrs = entriesOf h.declared) :
    (o.prepare h).attr? "ref" = h.attr? "ref" ∧ (o.prepare h).declaredRef = h.declaredRef := by
  have hattr : (o.prepare h).attr? "ref" = h.attr? "ref" :=
    o.attr?_prepare hattrs (by decide) (by decide) (by decide)
  rw [Head.declaredRef, hattr, Head.isRoot, o.prepare_tag h |>.2]
  exact ⟨rfl, rfl⟩

def Undropped (messages : List String) : Prop :=
  ∀ flaw : Flaw, flaw.dropsElement → flaw.message ∉ messages

theorem Undropped.of_prefix {messages messages' : List String} (h : Undropped messages')
    (hfront : messages <+: messages') : Undropped messages :=
  fun flaw hdrops hmem => h flaw hdrops (hfront.subset hmem)

theorem Undropped.keepsElements {messages : List String} {problems : List Problem}
    (h : Undropped (messages ++ problems.map (·.message))) : KeepsElements problems := by
  intro p hp
  by_contra hdrops
  exact h p.flaw (by simpa using hdrops)
    (List.mem_append_right _ (List.mem_map_of_mem (f := Problem.message) hp))

/-- What the walk of an element or of siblings adds to a context and leaves of the names. -/
structure Registers (exact : Prop) (context context' : Context) (found : List Ref)
    (kept : List String) : Prop where
  refs : context'.refs = context.refs ++ found
  errors : context.errors <+: context'.errors
  names : PartOf (exact ∧ Undropped context'.errors) kept (found.map (·.name))

def IsSource (o : Options) (e : Element) : Prop :=
  e.branches = [] ∧ e.head.attrs = entriesOf e.head.declared ∧ o.Names e

theorem errors_chainWalked (site : List Node × Context) :
    site.2.errors <+: (chainWalked site).2.errors ∧
      (Undropped (chainWalked site).2.errors →
        Undropped site.2.errors ∧ KeepsElements (chain site.1).2) :=
  ⟨List.prefix_append _ _, fun h => ⟨h.of_prefix (List.prefix_append _ _), h.keepsElements⟩⟩

mutual

/-- The names below an element are registered first, then its own. -/
theorem registers_walkElement (hextra : o.extraRules = []) :
    (e : Element) → (hsource : e.All (IsSource o)) → {e' : Element} → {context context' : Context} →
    walkElement o.rules e context = .done (e', context') →
    Registers (e.All o.KeepsNames) context context' e.declaredRefs (e'.fixedNames false)
  | ⟨head, children, branches⟩, hsource, e', context, context', h => by
    rw [walkElement, Options.runBefore_rules hextra] at h
    dsimp only at h
    split at h
    · cases h
    · rename_i site hsite
      obtain ⟨hbranches, hattrs, hnames⟩ := hsource.self
      dsimp only at hbranches hattrs
      subst hbranches
      obtain ⟨href, hdeclared⟩ := prepare_ref (o := o) hattrs
      have hbelow := registers_walkEach hextra children (fun x hx => hsource.child hx) hsite
      have hfilled : (o.prepare head).attr? "ref" ≠ some "" := by
        rw [href]
        exact hnames.filled
      obtain ⟨hrefs, herrors, hkept⟩ := builtinRules_refs hfilled hnames.unwritten
        (Options.runAfter_rules hextra _ _ ▸ h)
      obtain ⟨hgrow, hchained⟩ := errors_chainWalked site
      have hreported : context.errors <+: (context.reportProblems (o.prepare head).extract.2).errors :=
        List.prefix_append _ _
      refine ⟨?_, (hreported.trans hbelow.errors).trans (hgrow.trans herrors), ?_⟩
      · have hsame : (chainWalked site).2.refs = site.2.refs := rfl
        rw [hrefs, hsame, hbelow.refs, hdeclared, List.append_assoc]
        rfl
      · -- What is reported on the way is still there at the end, so that no chain lost an element.
        have hchain : PartOf (_ ∧ Undropped context'.errors) (fixedNamesEach false (chain site.1).1)
            ((declaredRefsEach children).map (·.name)) :=
          ((fixedNames_chain site.1).mono fun ⟨_, hnone⟩ => (hchained (hnone.of_prefix herrors)).2).trans
          (hbelow.names.mono fun ⟨hkeeps, hnone⟩ =>
            ⟨hkeeps, (hchained (hnone.of_prefix herrors)).1⟩)
        have hown : head.declaredRef.map (·.name) = (head.attr? "ref").toList := by
          rw [Head.declaredRef, List.map_map]
          exact List.map_id _
        rw [Element.declaredRefs, List.map_append, hown]
        rw [href] at hkept
        refine (hkept.mono ?_).trans ((hchain.mono ?_).append (.of_perm .rfl))
        · rintro ⟨hkeeps, -⟩
          refine ⟨hkeeps.self.own, fun hcontent => List.subperm_nil.1 ?_⟩
          have hnil : declaredRefsEach children = [] := hkeeps.self.below hcontent
          rw [hnil] at hchain
          exact hchain.sub
        · rintro ⟨hkeeps, hnone⟩
          exact ⟨fun x hx => hkeeps.child hx, hnone⟩

theorem registers_walkEach (hextra : o.extraRules = []) :
    (nodes : List Node) → (hsource : ∀ x, .element x ∈ nodes → x.All (IsSource o)) →
    {site : List Node × Context} → {context : Context} →
    walkEach o.rules nodes context = .done site →
    Registers (∀ x, .element x ∈ nodes → x.All o.KeepsNames) context site.2
      (declaredRefsEach nodes) (fixedNamesEach false site.1)
  | [], _, site, context, h => by
    cases h
    exact ⟨(List.append_nil _).symm, List.prefix_rfl, .of_perm .rfl⟩
  | .element e :: rest, hsource, site, context, h => by
    simp only [walkEach] at h
    split at h
    · cases h
    · rename_i e' inner he
      obtain ⟨⟨nodes, outer⟩, hrest, rfl⟩ := Edit.map_eq_done.1 h
      have hfirst := registers_walkElement hextra e (hsource e List.mem_cons_self) he
      have hothers := registers_walkEach hextra rest
        (fun x hx => hsource x (List.mem_cons_of_mem _ hx)) hrest
      refine ⟨?_, hfirst.errors.trans hothers.errors, ?_⟩
      · rw [hothers.refs, hfirst.refs, List.append_assoc]
        rfl
      · -- An error of the first element would still be there at the end.
        rw [fixedNamesEach, declaredRefsEach, List.map_append]
        refine PartOf.append (hfirst.names.mono ?_) (hothers.names.mono ?_)
        · rintro ⟨hkeeps, hnone⟩
          exact ⟨hkeeps e List.mem_cons_self, hnone.of_prefix hothers.errors⟩
        · rintro ⟨hkeeps, hnone⟩
          exact ⟨fun x hx => hkeeps x (List.mem_cons_of_mem _ hx), hnone⟩
  | .text content span :: rest, hsource, site, context, h => by
    obtain ⟨⟨nodes, outer⟩, hrest, rfl⟩ := Edit.map_eq_done.1 h
    have hothers := registers_walkEach hextra rest
      (fun x hx => hsource x (List.mem_cons_of_mem _ hx)) hrest
    exact ⟨hothers.refs, hothers.errors, hothers.names.mono fun ⟨hkeeps, hnone⟩ =>
      ⟨fun x hx => hkeeps x (List.mem_cons_of_mem _ hx), hnone⟩⟩
  | .comment content span :: rest, hsource, site, context, h => by
    obtain ⟨⟨nodes, outer⟩, hrest, rfl⟩ := Edit.map_eq_done.1 h
    have hothers := registers_walkEach hextra rest
      (fun x hx => hsource x (List.mem_cons_of_mem _ hx)) hrest
    exact ⟨hothers.refs, hothers.errors, hothers.names.mono fun ⟨hkeeps, hnone⟩ =>
      ⟨fun x hx => hkeeps x (List.mem_cons_of_mem _ hx), hnone⟩⟩

end

end Walk

/-! ## Compiling -/

theorem fixedNames_firstElement {nodes : List Node} {root : Element}
    (h : firstElement? nodes = some root) :
    PartOf (KeepsElements (checkSingleRoot nodes)) (root.fixedNames false) (fixedNamesEach false nodes) := by
  have hflat : fixedNamesEach false nodes =
      (nodes.filterMap (·.element?)).flatMap (·.fixedNames false) := by
    clear h
    induction nodes with
    | nil => rfl
    | cons node nodes ih =>
      cases node with
      | element e =>
        rw [fixedNamesEach, ih]
        rfl
      | text content span => exact ih
      | comment content span => exact ih
  have hfirst : (nodes.filterMap (·.element?)).head? = some root := by
    rw [List.head?_filterMap]
    exact h
  obtain ⟨rest, hrest⟩ := List.head?_eq_some_iff.1 hfirst
  rw [hflat, checkSingleRoot, hrest, List.flatMap_cons]
  cases rest with
  | nil =>
    apply PartOf.of_perm
    rw [List.flatMap_nil, List.append_nil]
  | cons extra rest =>
    refine ⟨(List.sublist_append_left _ _).subperm, fun hkeeps => ?_⟩
    cases hkeeps _ List.mem_cons_self

theorem registers_walk {o : Options} (hextra : o.extraRules = []) {nodes nodes' : List Node}
    {context context' : Context} (hsource : ∀ x, .element x ∈ nodes → x.All (IsSource o))
    (h : walk o.rules nodes context = .done (nodes', context')) {root : Element}
    (hroot : firstElement? nodes' = some root) :
    Registers (∀ x, .element x ∈ nodes → x.All o.KeepsNames) context context'
      (declaredRefsEach nodes) (root.fixedNames false) := by
  obtain ⟨site, hsite, hdone⟩ := Edit.andThen_eq_done.1 h
  have hwalked := registers_walkEach hextra nodes hsource hsite
  obtain ⟨hgrow, hchained⟩ := errors_chainWalked site
  obtain ⟨hnodes, hcontext⟩ := Prod.mk.inj (Edit.done.inj hdone)
  rw [← hnodes] at hroot
  have hreported : context'.errors = (chainWalked site).2.errors ++
      (checkSingleRoot (chainWalked site).1).map (·.message) := by rw [← hcontext]; rfl
  have hclean : Undropped context'.errors → Undropped (chainWalked site).2.errors ∧
      KeepsElements (checkSingleRoot (chainWalked site).1) := by
    intro hnone
    rw [hreported] at hnone
    exact ⟨hnone.of_prefix (List.prefix_append _ _), hnone.keepsElements⟩
  refine ⟨?_, ?_, ?_⟩
  · rw [← hwalked.refs, ← hcontext]
    rfl
  · rw [hreported]
    exact hwalked.errors.trans (hgrow.trans (List.prefix_append _ _))
  · refine ((fixedNames_firstElement hroot).mono fun ⟨_, hnone⟩ => (hclean hnone).2).trans ?_
    refine ((fixedNames_chain site.1).mono fun ⟨_, hnone⟩ => (hchained (hclean hnone).1).2).trans ?_
    exact hwalked.names.mono fun ⟨hkeeps, hnone⟩ => ⟨hkeeps, (hchained (hclean hnone).1).1⟩

/-- The registry of a compiled template holds the fixed names of the source in the order of the walk.
Every fixed name of the output is registered, copies that a choice makes counted once. If no element
is reported as dropped and no name is taken away, the output has all the names of the registry. -/
theorem compile_refs {o : Options} (hextra : o.extraRules = []) {source : String} {out : Output}
    (hcompile : compile o source = .ok out)
    (hnames : ∀ e, Occurs (read {} (Text.trimmed source)).value e → o.Names e) :
    out.refs = declaredRefsEach (read {} (Text.trimmed source)).value ∧
      (out.source.fixedNames false).Subperm (out.refs.map (·.name)) ∧
      ((∀ e, Occurs (read {} (Text.trimmed source)).value e → o.KeepsNames e) →
        Undropped out.errors → (out.source.fixedNames false).Perm (out.refs.map (·.name))) := by
  have hsource : ∀ x, .element x ∈ (read {} (Text.trimmed source)).value → x.All (IsSource o) := by
    intro x hx
    refine Element.all_of_occurs hx fun e he => ?_
    obtain ⟨parent, c, span, hhead⟩ := he.read_head
    exact ⟨he.of_all fun _ => read_fresh, by rw [hhead]; rfl, hnames e he⟩
  unfold compile run at hcompile
  dsimp only at hcompile
  split at hcompile
  · cases hcompile
  · rename_i nodes context hwalk
    unfold finish at hcompile
    split at hcompile
    · cases hcompile
    · rename_i root hroot
      dsimp only at hcompile
      split at hcompile
      · cases hcompile
      · cases hcompile
      · cases hcompile
        have hregisters := registers_walk hextra hsource hwalk hroot
        have hrefs : context.refs = declaredRefsEach (read {} (Text.trimmed source)).value :=
          hregisters.refs.trans (List.nil_append _)
        have hparts := hregisters.names
        rw [← hrefs] at hparts
        exact ⟨hrefs, hparts.sub, fun hkeeps hnone =>
          hparts.all ⟨fun x hx => Element.all_of_occurs hx hkeeps, hnone⟩⟩

theorem head?_toList_append {text more : String} {c : Char} (h : text.toList.head? = some c) :
    (text ++ more).toList.head? = some c := by
  rw [String.toList_append, List.head?_append, h]
  rfl

theorem head?_dropMessage {flaw : Flaw} (hdrops : flaw.dropsElement) :
    flaw.message.toList.head? = some 'v' ∨ flaw.message.toList.head? = some 'C' := by
  cases flaw with
  | orphanElse test tag =>
    refine .inl (head?_toList_append (head?_toList_append (head?_toList_append ?_)))
    cases test with
    | none => decide
    | some test => exact head?_toList_append (head?_toList_append (by decide))
  | multipleRoots => exact .inr (head?_toList_append (by decide))
  | _ => cases hdrops

theorem undropped_of_head? {messages : List String}
    (h : ∀ m ∈ messages, m.toList.head? ≠ some 'v' ∧ m.toList.head? ≠ some 'C') :
    Undropped messages :=
  fun _ hdrops hmem => (head?_dropMessage hdrops).elim (h _ hmem).1 (h _ hmem).2

def sampleNames : String :=
  "<p ref=\"a\"><b v-if=\"x\" ref=\"b\"></b>t<i v-else ref=\"c\"></i>"

theorem sampleNames_registered :
    ∃ out, compile {} sampleNames = .ok out ∧
      out.refs = [⟨"b", false⟩, ⟨"c", false⟩, ⟨"a", true⟩] ∧ out.errors ≠ [] ∧
      (out.source.fixedNames false).Perm (out.refs.map (·.name)) := by
  generalize hresult : compile {} sampleNames = result
  have heval : (result.toOption.any fun out => !out.errors.isEmpty &&
      decide (∀ m ∈ out.errors, m.toList.head? ≠ some 'v' ∧ m.toList.head? ≠ some 'C') &&
      out.refs == [⟨"b", false⟩, ⟨"c", false⟩, ⟨"a", true⟩]) = true := by
    rw [← hresult]
    decide +kernel
  obtain ⟨out, hout, heval⟩ := (Option.any_eq_true _ _).1 heval
  rw [Bool.and_eq_true, Bool.and_eq_true, Bool.not_eq_true', decide_eq_true_eq, beq_iff_eq] at heval
  obtain ⟨⟨hreported, hharmless⟩, hrefs⟩ := heval
  rw [toOption_eq_some.1 hout] at hresult ⊢
  have hnames : ∀ e ∈ elementsEach (read {} (Text.trimmed sampleNames)).value,
      ({} : Options).Names e ∧ ({} : Options).KeepsNames e := by
    decide +kernel
  obtain ⟨-, -, hperm⟩ := compile_refs rfl hresult fun e he => (hnames e he.mem_elements).1
  exact ⟨out, rfl, hrefs, by simpa using hreported,
    hperm (fun e he => (hnames e he.mem_elements).2) (undropped_of_head? hharmless)⟩

/-- Templates with the names that are registered and the fixed names of the output: a choice writes one
element twice, elements are dropped or cleared, and names are drained, computed or filled. -/
def unmatchedNames : List (String × List String × List String) :=
  [("<div><component :is=\"c ? 'a' : 'b'\" ref=\"x\"></component></div>", ["x"], ["x", "x"]),
    ("<div><p v-else ref=\"x\"></p></div>", ["x"], []),
    ("<p ref=\"x\"></p><p ref=\"y\"></p>", ["x", "y"], ["x"]),
    ("<div v-html=\"h\"><p ref=\"x\"></p></div>", ["x"], []),
    ("<transition ref=\"x\"><p></p></transition>", ["x"], []),
    ("<p ref=\"x\" :ref=\"y\"></p>", ["x"], []),
    ("<p ref=\"\x7b\x7b x \x7d\x7d\"></p>", ["\x7b\x7b x \x7d\x7d"], []),
    ("<p :s-ref.sync=\"x\"></p>", [], ["\x7b= x =\x7d"]),
    ("<p ref=\"\"></p>", ["\x7b\x7b true \x7d\x7d"], [])]

theorem names_unmatched :
    unmatchedNames.Forall fun c => ¬c.2.1.Perm c.2.2 ∧ ∃ out, compile {} c.1 = .ok out ∧
      out.refs.map (·.name) = c.2.1 ∧ out.source.fixedNames true = c.2.2 := by
  have heval : ∀ c ∈ unmatchedNames, ¬c.2.1.Perm c.2.2 ∧
      ((compile {} c.1).toOption.any fun out =>
        out.refs.map (·.name) == c.2.1 && out.source.fixedNames true == c.2.2) = true := by
    decide +kernel
  refine List.forall_iff_forall_mem.2 fun c hc => ?_
  obtain ⟨hunlike, heval⟩ := heval c hc
  obtain ⟨out, hout, heval⟩ := (Option.any_eq_true _ _).1 heval
  rw [Bool.and_eq_true, beq_iff_eq, beq_iff_eq] at heval
  exact ⟨hunlike, out, toOption_eq_some.1 hout, heval.1, heval.2⟩

end VueToSan
