import VueToSan.Proofs.RuleSequence
import VueToSan.Proofs.StructuralDirectives

/-!
# Directives of the source that are left

The rules rename or drop the directives of the source, and what they write is no such directive.
A walked template may still hold those with a blank value or a header that is no loop, a second
model, names that only start like a binding or a listener, and bound attributes whose own name is
that of a directive.
-/

namespace VueToSan.Markup

open VueToSan.Text VueToSan.Transform

def sourceMarks : List String := [":", "@", "v-bind", "v-on", "v-model."]

def sourceNames : List String :=
  ["v-if", "v-else-if", "v-else", "v-for", "v-show", "v-html", "v-text", "v-safe-html",
   "v-dangerous-html", "v-model"]

def isSourceKey (name : String) : Bool :=
  sourceMarks.any (fun mark => mark.toList.isPrefixOf name.toList) || sourceNames.contains name

def directivesOf (declared : List Attr) : List Directive := declared.filterMap (·.directive?)

/-- Why a directive of the source is left on an element that declared some attributes. -/
inductive LeftOver (declared : List Attr) : String → Prop
  /-- A test without a value. -/
  | blankTest {key value : String} (hkey : key ∈ ["v-if", "v-else-if", "v-show"])
      (hvalue : (entriesOf declared).get? key = some value) (hblank : allBlank value) :
      LeftOver declared key
  /-- A header that is no loop. -/
  | noLoop {text : String} (htext : (entriesOf declared).get? "v-for" = some text)
      (hno : allBlank text ∨ Loop.ofText? text = none) : LeftOver declared "v-for"
  | blankHtml {d : Directive} (hd : d ∈ directivesOf declared)
      (hname : d.name = "html" ∨ d.name = "dangerous-html") (hblank : allBlank d.value) :
      LeftOver declared "v-html"
  | blankText {d : Directive} (hd : d ∈ directivesOf declared) (hname : d.name = "text")
      (hblank : allBlank d.value) : LeftOver declared "v-text"
  /-- A model behind another one. -/
  | secondModel {first d : Directive}
      (hfirst : (directivesOf declared).find? (·.name == "model") = some first)
      (hd : d ∈ directivesOf declared) (hname : d.name = "model")
      (hne : first.rawName ≠ d.rawName) : LeftOver declared d.rawName
  /-- A name that starts like a binding or a listener but has no colon there. -/
  | noColon {a : Attr} (ha : a ∈ declared)
      (hmark : "v-bind".toList.isPrefixOf a.name.toList ∨ "v-on".toList.isPrefixOf a.name.toList)
      (hbound : boundName? a.name = none) (hlistener : listenerName? a.name = none)
      (hspread : a.name ≠ "v-bind") : LeftOver declared a.name
  /-- A bound attribute whose own name is that of a directive. -/
  | boundName {a : Attr} (ha : a ∈ declared) (hbound : (boundName? a.name).isSome) :
      LeftOver declared (boundTarget a.name)

/-! ## Declared attributes -/

theorem declared_of_get? {declared : List Attr} {name value : String}
    (h : (entriesOf declared).get? name = some value) :
    ∃ a ∈ declared, a.name = name ∧ a.value = value := by
  obtain ⟨a, ha, heq⟩ := List.mem_map.1 (Entries.mem_ofList (Entries.mem_of_get? h))
  rw [Prod.mk.injEq] at heq
  exact ⟨a, ha, heq⟩

theorem isSourceKey_head {name : String} (h : isSourceKey name) :
    name.toList.head? ∈ [some ':', some '@', some 'v'] := by
  rcases Bool.or_eq_true_iff.1 h with h | h
  · obtain ⟨mark, hmark, hstart⟩ := List.any_eq_true.1 h
    have hheads : ∀ mark ∈ sourceMarks, mark.toList ≠ [] ∧
        mark.toList.head? ∈ [some ':', some '@', some 'v'] := by decide
    obtain ⟨hne, hhead⟩ := hheads mark hmark
    obtain ⟨rest, hrest⟩ := List.isPrefixOf_iff_prefix.1 hstart
    rw [← hrest, List.head?_append_of_ne_nil _ hne]
    exact hhead
  · have hheads : ∀ name ∈ sourceNames, name.toList.head? ∈ [some ':', some '@', some 'v'] := by
      decide
    exact hheads name (List.contains_iff_mem.1 h)

theorem isSourceKey_listener (event : String) : isSourceKey ("on-" ++ event) = false := by
  rw [Bool.eq_false_iff]
  intro h
  have hfirst : ("on-" ++ event).toList.head? = some 'o' := by
    rw [String.toList_append]
    rfl
  have hhead := isSourceKey_head h
  rw [hfirst] at hhead
  revert hhead
  decide

theorem stripStart?_isSome (word cs : List Char) :
    (stripStart? word cs).isSome = word.isPrefixOf cs := by
  unfold stripStart?
  split
  · rename_i h
    exact h.symm
  · rename_i h
    exact (Bool.eq_false_iff.2 h).symm

theorem isSourceKey_of_mark (mark : String) {name : String} (hmark : mark ∈ sourceMarks)
    (h : mark.toList.isPrefixOf name.toList) : isSourceKey name :=
  Bool.or_eq_true_iff.2 (.inl (List.any_eq_true.2 ⟨mark, hmark, h⟩))

theorem isSourceKey_bound {name : String} (h : (boundName? name).isSome) : isSourceKey name := by
  have hmark : ":".toList.isPrefixOf name.toList ∨ "v-bind:".toList.isPrefixOf name.toList := by
    rw [← stripStart?_isSome, ← stripStart?_isSome]
    rw [boundName?] at h
    cases hstrip : stripStart? [':'] name.toList with
    | none => exact .inr (by rwa [hstrip] at h)
    | some rest => exact .inl (by rw [show ":".toList = [':'] from rfl, hstrip]; rfl)
  rcases hmark with h | h
  · exact isSourceKey_of_mark ":" (by decide) h
  · have hprefix := List.isPrefixOf_iff_prefix.1 h
    have hshort : "v-bind".toList <+: "v-bind:".toList := by decide
    exact isSourceKey_of_mark "v-bind" (by decide)
      (List.isPrefixOf_iff_prefix.2 (hshort.trans hprefix))

end VueToSan.Markup

namespace VueToSan.Transform

open VueToSan.Markup VueToSan.Text

/-! ## Steps and directives of the source -/

def Step.Plain (s : Step) : Prop := ∀ entry ∈ s.written?, isSourceKey entry.1 = false

def Drops (steps : List Step) (name : String) : Prop := ∃ s ∈ steps, s.taken? = some name

variable {h : Head} {steps : List Step} {key value : String}

theorem Step.Plain.spares {s : Step} (hs : s.Plain) (hkey : isSourceKey key) : s.Spares key := by
  intro entry hentry heq
  have hplain := hs entry hentry
  rw [heq, hkey] at hplain
  cases hplain

theorem Step.Plain.put {old new : String} (hnew : isSourceKey new = false) :
    (Step.put old new value).Plain := by
  intro entry hentry
  obtain rfl := Option.some.inj hentry
  exact hnew

theorem Step.Plain.set {name : String} (hname : isSourceKey name = false) :
    (Step.set name value).Plain := by
  intro entry hentry
  obtain rfl := Option.some.inj hentry
  exact hname

theorem Step.Plain.drop (name : String) : (Step.drop name).Plain := by
  intro entry hentry
  cases hentry

theorem Within.plain {Writes Takes : String → Prop} (hw : Within Writes Takes steps)
    (hwrites : ∀ name, Writes name → isSourceKey name = false) : ∀ s ∈ steps, s.Plain :=
  fun s hs entry hentry => hwrites entry.1 ((hw s hs).1 entry hentry)

theorem Within.plain_of_eq {name : String} {Takes : String → Prop}
    (hw : Within (· = name) Takes steps) (hname : isSourceKey name = false) :
    ∀ s ∈ steps, s.Plain :=
  hw.plain fun _ heq => heq ▸ hname

theorem attr?_of_plainStep {s : Step} (hs : s.Plain) (hkey : isSourceKey key)
    (hattr : (s.apply h).attr? key = some value) :
    h.attr? key = some value ∧ s.taken? ≠ some key := by
  have hspares : ∀ t ∈ [s], t.Spares key := List.forall_mem_singleton.2 (hs.spares hkey)
  obtain ⟨hattr, hkept⟩ := attr?_of_run hspares hattr
  exact ⟨hattr, hkept s List.mem_cons_self⟩

theorem attr?_of_plain (hplain : ∀ s ∈ steps, s.Plain) (hkey : isSourceKey key)
    (hattr : (h.run steps).attr? key = some value) :
    h.attr? key = some value ∧ ¬ Drops steps key := by
  obtain ⟨hattr, hkept⟩ := attr?_of_run (fun s hs => (hplain s hs).spares hkey) hattr
  exact ⟨hattr, fun ⟨s, hs, htaken⟩ => hkept s hs htaken⟩

/-! ## Tests, loops, listeners and models -/

theorem TestSteps.drops {test : Option String} {old new : String}
    (ht : TestSteps test old new steps) (htest : test.isSome) : Drops steps old := by
  rcases ht with ⟨rfl, -⟩ | ⟨source, code, -, -, rfl⟩
  · cases htest
  · exact ⟨_, List.mem_cons_self, rfl⟩

theorem LoopSteps.drops (hl : LoopSteps h steps) (hloop : h.loop.isSome) : Drops steps "v-for" := by
  rcases hl with ⟨hnone, -⟩ | ⟨l, code, -, -, rfl⟩
  · rw [hnone] at hloop
    cases hloop
  · exact ⟨_, List.mem_cons_self, rfl⟩

theorem elseSteps_drops (helse : h.hasElse) : Drops (elseSteps h) "v-else" := by
  rw [elseSteps, if_pos helse]
  exact ⟨_, List.mem_cons_self, rfl⟩

theorem listeners_drop {listeners : List Attr} (hl : List.Forall₂ ListenerStep listeners steps)
    {a : Attr} (ha : a ∈ listeners) : Drops steps a.name := by
  induction hl with
  | nil => cases ha
  | cons hs _ ih =>
    rcases List.mem_cons.1 ha with rfl | ha
    · obtain ⟨handler, -, rfl⟩ := hs
      exact ⟨_, List.mem_cons_self, rfl⟩
    · obtain ⟨s, hs, htaken⟩ := ih ha
      exact ⟨s, List.mem_cons_of_mem _ hs, htaken⟩

theorem Opening.plain (ho : Opening h steps) : ∀ s ∈ steps, s.Plain := by
  apply ho.within.plain
  rintro name (hname | ⟨event, rfl⟩)
  · revert hname
    revert name
    decide
  · exact isSourceKey_listener event

/-! ## Content -/

theorem attr?_of_plainHtml (hkey : key ≠ "v-html") (hattr : (plainHtml h).attr? key = some value) :
    h.attr? key = some value ∧ key ≠ "v-safe-html" ∧ key ≠ "v-dangerous-html" := by
  have hsafe : key ≠ "v-safe-html" := by
    intro heq
    rw [plainHtml, attr?_renameHtml_form _ _ heq hkey] at hattr
    cases hattr
  rw [plainHtml, attr?_renameHtml "safe-html" _ _ hkey hsafe] at hattr
  have hdangerous : key ≠ "v-dangerous-html" := by
    intro heq
    rw [attr?_renameHtml_form _ _ heq hkey] at hattr
    cases hattr
  rw [attr?_renameHtml "dangerous-html" _ _ hkey hdangerous] at hattr
  exact ⟨hattr, hsafe, hdangerous⟩

theorem directiveValue?_eq_none {name : String} (hkey : key = "v-" ++ name)
    (hattr : h.attr? key = some value) (hnone : contentSource? h name = none) :
    directiveValue? h name = none := by
  have hhas : h.hasAttr ("v-" ++ name) := by
    rw [← hkey, Head.hasAttr, Entries.has_eq_isSome, ← Head.attr?, hattr]
    rfl
  rwa [contentSource?, if_pos hhas] at hnone

theorem transformContent_key {e x : Element} (hdone : transformContent e = .done x)
    (hkey : isSourceKey key) (hattr : x.head.attr? key = some value) :
    (plainHtml e.head).attr? key = some value ∧
      (key = "v-html" → directiveValue? (plainHtml e.head) "html" = none) ∧
      (key = "v-text" → directiveValue? (plainHtml e.head) "text" = none) := by
  obtain ⟨mid, hmid, hx⟩ := transformContent_cases hdone
  obtain ⟨hattr, htext⟩ : mid.head.attr? key = some value ∧
      (key = "v-text" → directiveValue? mid.head "text" = none) := by
    rcases hx with ⟨hnone, rfl⟩ | ⟨source, code, -, -, rfl⟩
    · exact ⟨hattr, fun heq => directiveValue?_eq_none heq hattr hnone⟩
    · obtain ⟨hattr, hkept⟩ := attr?_of_plainStep (.drop "v-text") hkey hattr
      exact ⟨hattr, fun heq => absurd (congrArg some heq.symm) hkept⟩
  rcases hmid with ⟨hnone, rfl⟩ | ⟨source, code, -, -, rfl⟩
  · exact ⟨hattr, fun heq => directiveValue?_eq_none heq hattr hnone, htext⟩
  · obtain ⟨hattr, hkept⟩ := attr?_of_plainStep (.put (by decide)) hkey hattr
    exact ⟨hattr, fun heq => absurd (congrArg some heq.symm) hkept, htext⟩

/-! ## Directives after the html forms are plain -/

theorem mem_renameDirective {form v : String} {ds : List Directive} {d : Directive}
    (hd : d ∈ renameDirective form v ds) : d ∈ ds ∨ d.value = v := by
  fun_induction renameDirective form v ds with
  | case1 => cases hd
  | case2 d₀ ds hform =>
    rcases List.mem_cons.1 hd with rfl | hd
    · exact .inr rfl
    · exact .inl (List.mem_cons_of_mem _ hd)
  | case3 d₀ ds hform ih =>
    rcases List.mem_cons.1 hd with rfl | hd
    · exact .inl List.mem_cons_self
    · exact (ih hd).imp_left (List.mem_cons_of_mem _)

theorem renameDirective_html {form v : String} {ds : List Directive} {d : Directive} (hd : d ∈ ds)
    (hname : d.name = "html" ∨ d.name = form) :
    ∃ d' ∈ renameDirective form v ds, d'.name = "html" := by
  fun_induction renameDirective form v ds with
  | case1 => cases hd
  | case2 d₀ ds hform => exact ⟨_, List.mem_cons_self, rfl⟩
  | case3 d₀ ds hform ih =>
    rcases List.mem_cons.1 hd with rfl | hd
    · exact ⟨d, List.mem_cons_self, hname.resolve_right hform⟩
    · obtain ⟨d', hd', hhtml⟩ := ih hd
      exact ⟨d', List.mem_cons_of_mem _ hd', hhtml⟩

theorem find?_renameDirective {form v name : String} (hhtml : name ≠ "html") (hform : name ≠ form)
    (ds : List Directive) :
    (renameDirective form v ds).find? (·.name == name) = ds.find? (·.name == name) := by
  fun_induction renameDirective form v ds with
  | case1 => rfl
  | case2 d₀ ds heq =>
    rw [List.find?_cons_of_neg (by simpa using hhtml.symm),
      List.find?_cons_of_neg (by simpa [heq] using hform.symm)]
  | case3 d₀ ds hne ih => rw [List.find?_cons, List.find?_cons, ih]

theorem directive?_renameHtml {form name : String} (wrap : String → String) (h : Head)
    (hhtml : name ≠ "html") (hform : name ≠ form) :
    (renameHtml form wrap h).directive? name = h.directive? name := by
  unfold renameHtml
  split
  · rfl
  · exact find?_renameDirective hhtml hform _

/-! ## Named elements, classes, styles and bound attributes -/

theorem StyleSteps.shown (hs : StyleSteps h steps) (hattr : h.attr? "v-show" = some value)
    (hkept : ¬ Drops steps "v-show") : allBlank value := by
  rcases hs with ⟨-, htest, -⟩ | ⟨parts, -, first, -, rfl⟩
  · rw [shownTest?, hattr, Option.filter_eq_none_iff] at htest
    simpa using htest value rfl
  · have hdrop : Step.drop "v-show" ∈ styleParts.map .drop := by simp [styleParts]
    exact absurd ⟨_, List.mem_cons_of_mem _ hdrop, rfl⟩ hkept

theorem SpreadSteps.drops (hs : SpreadSteps h steps) (hattr : h.attr? "v-bind" = some value) :
    Drops steps "v-bind" := by
  rcases hs with ⟨hnone, -⟩ | ⟨source, code, -, -, rfl⟩
  · rw [hnone] at hattr
    cases hattr
  · exact ⟨_, List.mem_cons_self, rfl⟩

theorem BindingSteps.drops {keys : List String} (hb : BindingSteps h keys steps) (hkey : key ∈ keys) :
    Drops steps key := by
  induction hb with
  | nil => cases hkey
  | cons hs _ ih =>
    rcases List.mem_cons.1 hkey with rfl | hkey
    · refine ⟨_, List.mem_cons_self, ?_⟩
      rcases hs with rfl | ⟨code, -, rfl | rfl⟩ <;> rfl
    · obtain ⟨t, ht, htaken⟩ := ih hkey
      exact ⟨t, List.mem_cons_of_mem _ ht, htaken⟩

theorem mem_boundKeys {h : Head} : key ∈ boundKeys h ↔
    (∃ value, h.attr? key = some value) ∧ (boundName? key).isSome := by
  rw [boundKeys, List.mem_filter, and_congr_left_iff]
  intro _
  rw [← Option.isSome_iff_exists, Head.attr?, ← Entries.has_eq_isSome, Entries.has, List.any_eq_true,
    Entries.keys, List.mem_map]
  simp

theorem refSteps_plain {first second : List Step} (hfirst : BoundRefSteps h ":ref" first)
    (hsecond : BoundRefSteps h "v-bind:ref" second) :
    ∀ s ∈ fixedRefSteps h ++ first ++ second, s.Plain := by
  have hsref : isSourceKey "s-ref" = false := by decide
  simp only [List.forall_mem_append]
  exact ⟨⟨(fixedRefSteps_within h).plain_of_eq hsref, hfirst.within.plain_of_eq hsref⟩,
    hsecond.within.plain_of_eq hsref⟩

theorem frontSteps_plain {h₁ h₂ h₃ : Head} {first second classes styles spread : List Step}
    (hfirst : BoundRefSteps h ":ref" first) (hsecond : BoundRefSteps h "v-bind:ref" second)
    (hclass : ClassSteps h₁ classes) (hstyle : StyleSteps h₂ styles)
    (hspread : SpreadSteps h₃ spread) :
    ∀ s ∈ fixedRefSteps h ++ first ++ second ++ classes ++ styles ++ spread, s.Plain := by
  rw [List.forall_mem_append, List.forall_mem_append, List.forall_mem_append]
  exact ⟨⟨⟨refSteps_plain hfirst hsecond, hclass.within.plain_of_eq (by decide)⟩,
    hstyle.within.plain_of_eq (by decide)⟩, hspread.within.plain_of_eq (by decide)⟩

theorem Closing.sourceKey (hc : Closing h steps) (hkey : isSourceKey key)
    (hattr : (h.run steps).attr? key = some value) :
    (∃ bound source, (boundName? bound).isSome ∧ h.attr? bound = some source ∧
      key = boundTarget bound) ∨
    h.attr? key = some value ∧ boundName? key = none ∧ key ≠ "v-bind" ∧
      (key = "v-show" → allBlank value) := by
  obtain ⟨hfirst, hsecond, hclass, hstyle, hspread, hbind⟩ := hc
  rename_i first second classes styles spread bindings
  have hrefs := refSteps_plain hfirst hsecond
  have hclassPlain := hclass.within.plain_of_eq (by decide)
  have hstylePlain := hstyle.within.plain_of_eq (by decide)
  have hspreadPlain := hspread.within.plain_of_eq (by decide)
  have hfront := frontSteps_plain hfirst hsecond hclass hstyle hspread
  by_cases hwritten : ∃ bound ∈ boundKeys
      (h.run (fixedRefSteps h ++ first ++ second ++ classes ++ styles ++ spread)),
      key = boundTarget bound
  · obtain ⟨bound, hbound, rfl⟩ := hwritten
    obtain ⟨⟨source, hsource⟩, hname⟩ := mem_boundKeys.1 hbound
    exact .inl ⟨bound, source, hname, (attr?_of_plain hfront (isSourceKey_bound hname) hsource).1,
      rfl⟩
  · right
    -- Backwards through the bindings, the spread and the styles.
    rw [Head.run_append] at hattr
    obtain ⟨hattr, hkept⟩ := attr?_of_run (hbind.within.spares hwritten) hattr
    have hunbound : boundName? key = none := by
      rw [← Option.not_isSome_iff_eq_none]
      intro hname
      obtain ⟨s, hs, htaken⟩ := hbind.drops (mem_boundKeys.2 ⟨⟨value, hattr⟩, hname⟩)
      exact hkept s hs htaken
    rw [Head.run_append] at hattr
    obtain ⟨hattr, hkept⟩ := attr?_of_plain hspreadPlain hkey hattr
    have hspreadKey : key ≠ "v-bind" := by
      rintro rfl
      exact hkept (hspread.drops hattr)
    rw [Head.run_append] at hattr
    obtain ⟨hattr, hkept⟩ := attr?_of_plain hstylePlain hkey hattr
    have hshown : key = "v-show" → allBlank value := by
      rintro rfl
      exact hstyle.shown hattr hkept
    rw [Head.run_append] at hattr
    obtain ⟨hattr, -⟩ := attr?_of_plain hclassPlain hkey hattr
    exact ⟨(attr?_of_plain hrefs hkey hattr).1, hunbound, hspreadKey, hshown⟩

/-! ## From the declared attributes to the end -/

section Element

variable {g : Head} {opening closing : List Step}

theorem Drops.mono {steps' : List Step} (hd : Drops steps key) (hsub : steps ⊆ steps') :
    Drops steps' key := by
  obtain ⟨s, hs, htaken⟩ := hd
  exact ⟨s, hsub hs, htaken⟩

theorem allBlank_of_filledValue {tag name v : String} (h : allBlank (filledValue tag name v)) :
    allBlank v := by
  by_cases hv : v = ""
  · rw [hv]
    rfl
  · rwa [filledValue_of_ne_empty hv] at h

theorem Opening.declared (hg : g.attrs = entriesOf g.declared) (ho : Opening g.extract.1 opening)
    (hkey : isSourceKey key)
    (hattr : ((fillEmpty g.extract.1).run opening).attr? key = some value) :
    ∃ a ∈ g.declared, a.name = key ∧ (entriesOf g.declared).get? key = some a.value ∧
      (allBlank value → allBlank a.value) ∧ ¬ Drops opening key := by
  obtain ⟨hattr, hkept⟩ := attr?_of_plain ho.plain hkey hattr
  rw [attr?_fillEmpty, Option.map_eq_some_iff] at hattr
  obtain ⟨v, hv, rfl⟩ := hattr
  have hv : (entriesOf g.declared).get? key = some v := hg ▸ hv
  obtain ⟨a, ha, hname, rfl⟩ := declared_of_get? hv
  exact ⟨a, ha, hname, hv, allBlank_of_filledValue, hkept⟩

theorem directive?_eq_some {a : Attr} {d : Directive} (h : a.directive? = some d) :
    d.rawName = a.name ∧ d.value = a.value := by
  unfold Attr.directive? at h
  split at h
  · cases h
  · split at h
    · cases h
    · obtain ⟨-, h⟩ := Option.ite_none_left_eq_some.1 h
      cases h
      exact ⟨rfl, rfl⟩

theorem mem_directivesOf {declared : List Attr} {a : Attr} {d : Directive} (ha : a ∈ declared)
    (hd : a.directive? = some d) : d ∈ directivesOf declared :=
  List.mem_filterMap.2 ⟨a, ha, hd⟩

def bareForms : List String := ["model", "html", "text", "safe-html", "dangerous-html"]

theorem bare_directive (form : String) {a : Attr} (hform : form ∈ bareForms)
    (hname : a.name = "v-" ++ form) : a.directive? = some ⟨form, a.name, a.value, none, []⟩ := by
  have hstrip : stripStart? "v-".toList a.name.toList = some form.toList := by
    rw [hname, String.toList_append]
    exact San.stripStart?_eq_some.2 rfl
  rw [Attr.directive?, hstrip]
  simp only [bareForms, List.mem_cons, List.not_mem_nil, or_false] at hform
  rcases hform with rfl | rfl | rfl | rfl | rfl <;> rfl

theorem model_directive {a : Attr}
    (hname : a.name = "v-model" ∨ "v-model.".toList.isPrefixOf a.name.toList) :
    ∃ d, a.directive? = some d ∧ d.name = "model" := by
  rcases hname with hname | hname
  · exact ⟨_, bare_directive "model" (by decide) hname, rfl⟩
  · obtain ⟨rest, hrest⟩ := List.isPrefixOf_iff_prefix.1 hname
    have hstrip : stripStart? "v-".toList a.name.toList = some ("model.".toList ++ rest) :=
      San.stripStart?_eq_some.2 hrest.symm
    have hsplit : splitOn '.' ("model.".toList ++ rest) = "model".toList :: splitOn '.' rest := rfl
    refine ⟨⟨"model", a.name, a.value, none, (splitOn '.' rest).map String.ofList⟩, ?_, rfl⟩
    rw [Attr.directive?, hstrip]
    dsimp only
    rw [hsplit]
    rfl

theorem Opening.secondModel (ho : Opening g.extract.1 opening) {a : Attr} (ha : a ∈ g.declared)
    (hname : a.name = "v-model" ∨ "v-model.".toList.isPrefixOf a.name.toList)
    (hkept : ¬ Drops opening a.name) : LeftOver g.declared a.name := by
  obtain ⟨d, hd, hmodel⟩ := model_directive hname
  have hmem : d ∈ directivesOf g.declared := mem_directivesOf ha hd
  obtain ⟨-, -, -, -, hsteps⟩ := ho
  rw [Head.run_eq] at hsteps
  rcases hsteps with ⟨hnone, -⟩ | ⟨first, code, hfirst, -, rfl⟩
  · have hno := List.find?_eq_none.1 hnone d hmem
    exact absurd (beq_iff_eq.2 hmodel) hno
  · have hne : first.rawName ≠ d.rawName := by
      intro heq
      apply hkept
      rw [← (directive?_eq_some hd).1, ← heq]
      exact ⟨_, List.mem_append_right _ List.mem_cons_self, rfl⟩
    rw [← (directive?_eq_some hd).1]
    exact .secondModel hfirst hmem hmodel hne

theorem mem_directives_renameHtml {form : String} {wrap : String → String} {d : Directive}
    (hd : d ∈ (renameHtml form wrap h).directives) :
    d ∈ h.directives ∨ ∃ v, h.attr? ("v-" ++ form) = some v ∧ d.value = wrap v := by
  unfold renameHtml at hd
  split at hd
  · exact .inl hd
  · rename_i v hv
    exact (mem_renameDirective hd).imp_right fun hvalue => ⟨v, hv, hvalue⟩

theorem renameHtml_html {form : String} {wrap : String → String} {d : Directive}
    (hd : d ∈ h.directives)
    (hname : d.name = "html" ∨ d.name = form ∧ (h.attr? ("v-" ++ form)).isSome) :
    ∃ d' ∈ (renameHtml form wrap h).directives, d'.name = "html" := by
  unfold renameHtml
  split
  · rename_i hnone
    rcases hname with hname | ⟨-, hsome⟩
    · exact ⟨d, hd, hname⟩
    · rw [hnone] at hsome
      cases hsome
  · exact renameDirective_html hd (hname.imp_right And.left)

theorem Opening.blankHtml (hg : g.attrs = entriesOf g.declared) (ho : Opening g.extract.1 opening)
    (hattr : (plainHtml ((fillEmpty g.extract.1).run opening)).attr? "v-html" = some value)
    (hnone : directiveValue? (plainHtml ((fillEmpty g.extract.1).run opening)) "html" = none) :
    LeftOver g.declared "v-html" := by
  generalize hopened : (fillEmpty g.extract.1).run opening = opened at hattr hnone
  have hdirectives : opened.directives = directivesOf g.declared := by
    rw [← hopened, Head.run_eq]
    rfl
  have hform : ∀ form ∈ bareForms, ∀ v, opened.attr? ("v-" ++ form) = some v →
      ∃ d ∈ opened.directives, d.name = form ∧ (allBlank v → allBlank d.value) := by
    intro form hmem v hv
    have hkey : isSourceKey ("v-" ++ form) := by
      have hkeys : ∀ form ∈ bareForms, isSourceKey ("v-" ++ form) := by decide
      exact hkeys form hmem
    rw [← hopened] at hv
    obtain ⟨a, ha, hname, -, hblank, -⟩ := ho.declared hg hkey hv
    rw [hdirectives]
    exact ⟨_, mem_directivesOf ha (bare_directive form hmem hname), rfl, hblank⟩
  -- There is an html directive, so the first one of them has no value.
  obtain ⟨d₀, hd₀, hname₀⟩ : ∃ d ∈ (plainHtml opened).directives, d.name = "html" := by
    cases hdangerous : opened.attr? ("v-" ++ "dangerous-html") with
    | some v =>
      obtain ⟨d, hd, hname, -⟩ := hform "dangerous-html" (by decide) v hdangerous
      obtain ⟨d', hd', hname'⟩ := renameHtml_html hd (.inr ⟨hname, by rw [hdangerous]; rfl⟩)
      exact renameHtml_html hd' (.inl hname')
    | none =>
      have hsame : renameHtml "dangerous-html" id opened = opened := by
        rw [renameHtml, hdangerous]
      rw [plainHtml, hsame] at hattr ⊢
      cases hsafe : opened.attr? ("v-" ++ "safe-html") with
      | some v =>
        obtain ⟨d, hd, hname, -⟩ := hform "safe-html" (by decide) v hsafe
        exact renameHtml_html hd (.inr ⟨hname, by rw [hsafe]; rfl⟩)
      | none =>
        rw [renameHtml, hsafe] at hattr ⊢
        obtain ⟨d, hd, hname, -⟩ := hform "html" (by decide) value hattr
        exact ⟨d, hd, hname⟩
  obtain ⟨d, hd⟩ : ∃ d, (plainHtml opened).directive? "html" = some d := by
    rw [← Option.isSome_iff_exists, Head.directive?, List.find?_isSome]
    exact ⟨d₀, hd₀, beq_iff_eq.2 hname₀⟩
  have hblank : allBlank d.value := by
    rw [directiveValue?, hd, Option.map_some, Option.filter_eq_none_iff] at hnone
    simpa using hnone d.value rfl
  have hname : d.name = "html" := by simpa using List.find?_some hd
  -- A sanitised value is a call, which is not blank; any other one is a value of the source.
  rcases mem_directives_renameHtml (List.mem_of_find?_eq_some hd) with hmem | ⟨v, -, hsafe⟩
  · rcases mem_directives_renameHtml hmem with hmem | ⟨v, hv, hvalue⟩
    · exact .blankHtml (hdirectives ▸ hmem) (.inl hname) hblank
    · obtain ⟨d', hd', hname', hblank'⟩ := hform "dangerous-html" (by decide) v hv
      exact .blankHtml (hdirectives ▸ hd') (.inr hname') (hblank' (by rwa [hvalue] at hblank))
  · rw [hsafe, allBlank, String.toList_append, String.toList_append] at hblank
    cases hblank

theorem Opening.drops_listener {head : Head} (ho : Opening head opening) {a : Attr}
    (ha : a ∈ head.declared) (hname : (listenerName? a.name).isSome) : Drops opening a.name := by
  obtain ⟨-, -, -, hlisteners, -⟩ := ho
  have hmem : a ∈ listenersOf head := List.mem_filter.2 ⟨ha, hname⟩
  exact (listeners_drop hlisteners hmem).mono (by intro s hs; simp [hs])

theorem Opening.blankText {a : Attr} (ha : a ∈ g.declared) (hname : a.name = "v-text")
    (hnone : directiveValue? (plainHtml ((fillEmpty g.extract.1).run opening)) "text" = none) :
    LeftOver g.declared "v-text" := by
  have hfind : (plainHtml ((fillEmpty g.extract.1).run opening)).directive? "text" =
      (directivesOf g.declared).find? (·.name == "text") := by
    rw [plainHtml, directive?_renameHtml _ _ (by decide) (by decide),
      directive?_renameHtml _ _ (by decide) (by decide), Head.run_eq]
    rfl
  have hmem := mem_directivesOf ha (bare_directive "text" (by decide) hname)
  obtain ⟨d, hd⟩ : ∃ d, (directivesOf g.declared).find? (·.name == "text") = some d := by
    rw [← Option.isSome_iff_exists, List.find?_isSome]
    exact ⟨_, hmem, rfl⟩
  rw [directiveValue?, hfind, hd, Option.map_some, Option.filter_eq_none_iff] at hnone
  have hblank : allBlank d.value := by simpa using hnone d.value rfl
  exact .blankText (List.mem_of_find?_eq_some hd) (by simpa using List.find?_some hd) hblank

theorem blank_of_filled? (hattr : g.attr? key = some value) (hnone : ¬ (g.filled? key).isSome) :
    allBlank value := by
  rw [Option.not_isSome_iff_eq_none, Head.filled?, hattr, Option.filter_eq_none_iff] at hnone
  simpa using hnone value rfl

theorem Opening.leftOver_control (hg : g.attrs = entriesOf g.declared)
    (ho : Opening g.extract.1 opening) (hkey : key ∈ ["v-if", "v-else-if", "v-else", "v-for"])
    (hvalue : (entriesOf g.declared).get? key = some value) (hkept : ¬ Drops opening key) :
    LeftOver g.declared key := by
  obtain ⟨htest, hbranch, hsteps, -, -⟩ := ho
  have hattr : g.attr? key = some value := by rw [Head.attr?, hg, hvalue]
  simp only [List.mem_cons, List.not_mem_nil, or_false] at hkey
  -- A test or a loop that was found is dropped with its attribute, so none was found.
  rcases hkey with rfl | rfl | rfl | rfl
  · have hnone : ¬ (g.filled? "v-if").isSome := fun hsome =>
      hkept ((htest.drops hsome).mono (by intro s hs; simp [hs]))
    exact .blankTest (by decide) hvalue (blank_of_filled? hattr hnone)
  · have hnone : ¬ (g.filled? "v-else-if").isSome := fun hsome =>
      hkept ((hbranch.drops hsome).mono (by intro s hs; simp [hs]))
    exact .blankTest (by decide) hvalue (blank_of_filled? hattr hnone)
  · have helse : g.extract.1.hasElse := by
      rw [Head.attr?] at hattr
      change g.attrs.has "v-else" = true
      rw [Entries.has_eq_isSome, hattr]
      rfl
    exact absurd ((elseSteps_drops helse).mono (by intro s hs; simp [hs])) hkept
  · have hnone : ¬ g.extract.1.loop.isSome := fun hsome =>
      hkept ((hsteps.drops hsome).mono (by intro s hs; simp [hs]))
    have hfound : (g.filled? "v-for").bind Loop.ofText? = none := by
      cases hfound : (g.filled? "v-for").bind Loop.ofText? with
      | none => rfl
      | some l =>
        have hextract : g.extract.1.loop = ((g.filled? "v-for").bind Loop.ofText?).orElse
          fun _ => g.loop := rfl
        rw [hextract, hfound] at hnone
        exact absurd rfl hnone
    refine .noLoop hvalue ?_
    by_cases hblank : allBlank value
    · exact .inl hblank
    · right
      rwa [Head.filled?, hattr, Option.filter_some_pos (by simpa using hblank),
        Option.bind_some] at hfound

theorem leftOver_of_attr (hg : g.attrs = entriesOf g.declared) {children : List Node}
    {branches : List Branch} {x : Element} (ho : Opening g.extract.1 opening)
    (hcontent : transformContent ⟨(fillEmpty g.extract.1).run opening, children, branches⟩ =
      .done x)
    (hc : Closing x.head closing) (hkey : isSourceKey key)
    (hattr : (x.head.run closing).attr? key = some value) : LeftOver g.declared key := by
  rcases hc.sourceKey hkey hattr with ⟨bound, source, hbound, hsource, rfl⟩ |
    ⟨hattr, hunbound, hspread, hshown⟩
  · -- The bound attribute was declared.
    have hboundKey := isSourceKey_bound hbound
    obtain ⟨hplain, -, -⟩ := transformContent_key hcontent hboundKey hsource
    have hhtml : bound ≠ "v-html" := by
      rintro rfl
      cases hbound
    obtain ⟨hopened, -, -⟩ := attr?_of_plainHtml hhtml hplain
    obtain ⟨a, ha, rfl, -⟩ := ho.declared hg hboundKey hopened
    exact .boundName ha hbound
  · obtain ⟨hplain, hhtml, htext⟩ := transformContent_key hcontent hkey hattr
    by_cases hother : key = "v-html"
    · subst hother
      exact ho.blankHtml hg hplain (hhtml rfl)
    · obtain ⟨hopened, hsafe, hdangerous⟩ := attr?_of_plainHtml hother hplain
      obtain ⟨a, ha, rfl, hvalue, hblank, hkept⟩ := ho.declared hg hkey hopened
      have hlistener : listenerName? a.name = none := by
        rw [← Option.not_isSome_iff_eq_none]
        exact fun hsome => hkept (ho.drops_listener ha hsome)
      rcases Bool.or_eq_true_iff.1 hkey with hmark | hmem
      · simp only [sourceMarks, List.any_cons, List.any_nil, Bool.or_false, Bool.or_eq_true] at hmark
        rcases hmark with hmark | hmark | hmark | hmark | hmark
        · rw [boundName?, stripStart?, if_pos (show [':'].isPrefixOf a.name.toList from hmark)]
            at hunbound
          cases hunbound
        · rw [listenerName?, stripStart?, if_pos (show ['@'].isPrefixOf a.name.toList from hmark)]
            at hlistener
          cases hlistener
        · exact .noColon ha (.inl hmark) hunbound hlistener hspread
        · exact .noColon ha (.inr hmark) hunbound hlistener hspread
        · exact ho.secondModel ha (.inr hmark) hkept
      · -- Names that stand for one directive each.
        have hname := List.contains_iff_mem.1 hmem
        simp only [sourceNames, List.mem_cons, List.not_mem_nil, or_false] at hname
        have hcontrol := fun hmem => ho.leftOver_control hg hmem hvalue hkept
        rcases hname with hname | hname | hname | hname | hname | hname | hname | hname | hname |
          hname
        · exact hcontrol (by rw [hname]; decide)
        · exact hcontrol (by rw [hname]; decide)
        · exact hcontrol (by rw [hname]; decide)
        · exact hcontrol (by rw [hname]; decide)
        · exact .blankTest (by rw [hname]; decide) hvalue (hblank (hshown hname))
        · exact absurd hname hother
        · rw [hname]
          exact Opening.blankText ha hname (htext hname)
        · exact absurd hname hsafe
        · exact absurd hname hdangerous
        · exact ho.secondModel ha (.inl hname) hkept

end Element

/-! ## The walk -/

/-- Every directive of the source that a head has is left over from declared attributes. -/
structure Sifted (declared : List Attr) (h : Head) : Prop where
  same : h.declared = declared
  left : ∀ key, isSourceKey key → h.hasAttr key → LeftOver declared key

namespace Sifted

variable {declared : List Attr}

theorem apply {s : Step} (hh : Sifted declared h) (hs : s.Plain) : Sifted declared (s.apply h) where
  same := by rw [← hh.same]; cases s <;> rfl
  left key hkey hattr := by
    rw [Head.hasAttr, Entries.has_eq_isSome, Option.isSome_iff_exists] at hattr
    obtain ⟨value, hvalue⟩ := hattr
    have hattr := (attr?_of_plainStep hs hkey hvalue).1
    apply hh.left key hkey
    rw [Head.hasAttr, Entries.has_eq_isSome, ← Head.attr?, hattr]
    rfl

theorem retag (hh : Sifted declared h) (tag : String) : Sifted declared { h with tag } :=
  ⟨hh.same, hh.left⟩

end Sifted

variable {source : List Node}

def IsSifted (source : List Node) (e : Element) : Prop :=
  ∃ origin, Occurs source origin ∧ Sifted origin.head.declared e.head

theorem isSifted_setTransition (code : String) (e : Element) (h : IsSifted source e) :
    IsSifted source (setTransition code e) := by
  obtain ⟨origin, horigin, hsifted⟩ := h
  exact ⟨origin, horigin, hsifted.apply (s := .set "s-transition" code) (.set (by decide))⟩

theorem transformTransition_sifted {e : Element} {declared : List Attr}
    (h : Sifted declared e.head) : Sifted declared (transformTransition e).head := by
  unfold transformTransition
  split
  · exact ⟨h.same, fun key _ hattr => by cases hattr⟩
  · exact h

theorem transformComponent_sifted {e e' : Element} {declared : List Attr}
    (he : Below (IsSifted source) (Sifted declared) e)
    (horigin : ∃ origin, Occurs source origin ∧ origin.head.declared = declared)
    (h : transformComponent e = .done e') : e'.All (IsSifted source) := by
  obtain ⟨origin, horigin, rfl⟩ := horigin
  have hbare : Sifted origin.head.declared (e.head.removeAttr "is") :=
    he.head.apply (.drop "is")
  rcases transformComponent_cases h with rfl | ⟨tag, rfl⟩ | ⟨test, consequent, alternate, -, rfl⟩
  · exact he.all ⟨origin, horigin, he.head⟩
  · exact (he.withHead (hbare.retag tag)).all ⟨origin, horigin, hbare.retag tag⟩
  · have howner := hbare.apply (s := .set "s-if" test) (.set (by decide))
    have hother := hbare.apply (s := .set "s-else" "") (.set (by decide))
    refine .intro ⟨origin, horigin, howner.retag consequent⟩ fun x hx => ?_
    rcases splitByTest_part hx with hx | rfl
    · exact he.children x hx
    · exact .of_children ⟨origin, horigin, hother.retag alternate⟩ he.children

theorem builtinRules_sifted {g : Head} (hg : g.attrs = entriesOf g.declared)
    (horigin : ∃ origin, Occurs source origin ∧ origin.head.declared = g.declared)
    {children : List Node} (hchildren : ∀ x, .element x ∈ children → x.All (IsSifted source))
    {e' : Element} {context context' : Context}
    (h : runAfter builtinRules ⟨g.extract.1, children, []⟩ context = .done (e', context')) :
    e'.All (IsSifted source) := by
  obtain ⟨opening, x, closing, ho, hcontent, hc, hcomponent, -⟩ := builtinRules_steps h
  have hsifted : Sifted g.declared (x.head.run closing) := by
    constructor
    · rw [Head.run_eq]
      change x.head.declared = g.declared
      rw [transformContent_head hcontent, Head.run_eq]
      rfl
    · intro key hkey hattr
      rw [Head.hasAttr, Entries.has_eq_isSome, Option.isSome_iff_exists] at hattr
      obtain ⟨value, hvalue⟩ := hattr
      exact leftOver_of_attr hg ho hcontent hc hkey hvalue
  have hopened : Below (IsSifted source) (fun _ => True)
      ⟨(fillEmpty g.extract.1).run opening, children, []⟩ := ⟨trivial, rfl, hchildren⟩
  have hafter : htmlRule.after ⟨(fillEmpty g.extract.1).run opening, children, []⟩ context =
      .done (x, context) := Edit.map_eq_done.2 ⟨x, hcontent, rfl⟩
  have hx : Below (IsSifted source) (fun _ => True) x :=
    takes_html_below (fun _ _ _ _ => trivial) _ x context context hopened hafter
  have hmarked : Below (IsSifted source) (Sifted g.declared)
      (transformTransition { x with head := x.head.run closing }) :=
    takes_transition_below isSifted_setTransition isSifted_setTransition
      (fun _ => transformTransition_sifted) _ _ context context (hx.withHead hsifted) rfl
  exact transformComponent_sifted hmarked horigin hcomponent

theorem siftedInvariant (source : List Node) :
    WalkInvariant builtinRules
      (fun e => Occurs source e ∧ e.branches = [] ∧ e.head.attrs = entriesOf e.head.declared)
      (Element.All (IsSifted source)) (Element.All (IsSifted source)) where
  after e e' context inner outer children hsource hchildren _ h := by
    obtain ⟨hoccurs, hbranches, hattrs⟩ := hsource
    rw [runBefore_builtinRules, hbranches] at h
    have hfields : (fragmentHead e.head).attrs = e.head.attrs ∧
        (fragmentHead e.head).declared = e.head.declared := by
      unfold fragmentHead
      split <;> exact ⟨rfl, rfl⟩
    exact builtinRules_sifted (by rw [hfields.1, hfields.2, hattrs])
      ⟨e, hoccurs, hfields.2.symm⟩ hchildren h
  settle e he _ := he
  attach e b he _ hb _ := Element.All.addBranch he.self he hb

/-- A directive of the source that a walked template still has is left over from what its element
declared: nothing else survives, and no rule writes one. -/
theorem walk_sourceKeys {options : ReadOptions} {source : String} {context context' : Context}
    {nodes : List Node}
    (h : walk builtinRules (read options source).value context = .done (nodes, context'))
    {e : Element} (he : Occurs nodes e) (hkey : isSourceKey key) (hattr : e.head.hasAttr key) :
    ∃ origin, Occurs (read options source).value origin ∧
      origin.head.declared = e.head.declared ∧ LeftOver e.head.declared key := by
  have hsource : ∀ x, Occurs (read options source).value x →
      Occurs (read options source).value x ∧ x.branches = [] ∧
        x.head.attrs = entriesOf x.head.declared := by
    intro x hx
    obtain ⟨parent, c, span, hhead⟩ := hx.read_head
    exact ⟨hx, hx.of_all fun _ => read_fresh, by rw [hhead]; rfl⟩
  obtain ⟨origin, horigin, hsifted⟩ := he.of_all
    ((siftedInvariant (read options source).value).settled_walk hsource h)
  refine ⟨origin, horigin, hsifted.same.symm, ?_⟩
  rw [hsifted.same]
  exact hsifted.left key hkey hattr

def sampleBlankTest : String :=
  "<p v-if v-for=\"x in xs\" v-show=\"x\" :a.sync=\"b\" @click.stop v-model=\"c\"></p>"

theorem sampleBlankTest_left :
    ∃ nodes context' e,
      walk builtinRules (read {} sampleBlankTest).value {} = .done (nodes, context') ∧
      Occurs nodes e ∧ e.head.attrs.keys.filter isSourceKey = ["v-if"] ∧
      LeftOver e.head.declared "v-if" := by
  generalize hresult : walk builtinRules (read {} sampleBlankTest).value {} = result
  have heval : (result.error?.isNone && (firstElement? result.value.1).any fun e =>
      e.head.attrs.keys.filter isSourceKey == ["v-if"] && e.head.hasAttr "v-if") = true := by
    rw [← hresult]
    decide +kernel
  simp only [Bool.and_eq_true, Option.any_eq_true, beq_iff_eq] at heval
  obtain ⟨hdone, e, he, hkeys, hattr⟩ := heval
  have hwalk : result = .done (result.value.1, result.value.2) := Edit.eq_done_of_error? hdone
  have hoccurs : Occurs result.value.1 e := ⟨e, firstElement?_mem he, .refl⟩
  obtain ⟨origin, -, -, hleft⟩ := walk_sourceKeys (hresult.trans hwalk) hoccurs (by decide) hattr
  exact ⟨_, _, e, hwalk, hoccurs, hkeys, hleft⟩

/-- An element keeps a test without a value, and gets a value for it. -/
theorem blank_test_survives :
    ∃ nodes context' e,
      walk builtinRules (read {} "<p v-if></p>").value {} = .done (nodes, context') ∧
      Occurs nodes e ∧ isSourceKey "v-if" ∧ e.head.attr? "v-if" = some (interpolate "true") := by
  generalize hresult : walk builtinRules (read {} "<p v-if></p>").value {} = result
  have heval : (result.error?.isNone && (firstElement? result.value.1).any fun e =>
      e.head.attr? "v-if" == some (interpolate "true")) = true := by
    rw [← hresult]
    decide +kernel
  simp only [Bool.and_eq_true, Option.any_eq_true, beq_iff_eq] at heval
  obtain ⟨hdone, e, he, hattr⟩ := heval
  exact ⟨_, _, e, Edit.eq_done_of_error? hdone, ⟨e, firstElement?_mem he, .refl⟩, by decide, hattr⟩

end VueToSan.Transform
