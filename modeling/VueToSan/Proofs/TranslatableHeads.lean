import VueToSan.Proofs.AdmittedAttributes
import VueToSan.Proofs.SourceKeys

/-!
# Heads that are translated into admitted attributes

San finds no inadmissible expression in an attribute that a rule writes, if the source of its code is
safe and it copies nothing. What is copied are attributes and San interpolations of the source, and
names that become part of a value. Each attribute of a head is such an attribute or a copy while the
rules run.
-/

namespace VueToSan.Transform

open VueToSan.Text VueToSan.Markup
open VueToSan.San (IsPropertyName IsCodePart keepsAdmitted readBack isLoopName keepsAdmitted_interpolate
  keepsAdmitted_bindBack keepsAdmitted_code keepsAdmitted_handler keepsAdmitted_loop)
open VueToSan.Expr (IsSound IsInner IsSafeSource IsUnfiltered)

/-! ## Sources -/

def namesDirective (directives : List String) (name : String) : Bool :=
  (({ name := name, value := "", span := default } : Attr).directive?).any (directives.contains ·.name)

def compiledNames : List String := ["v-if", "v-else-if", "v-show", "v-bind"]

def compiledDirectives : List String := ["model", "html", "text"]

/-- Whether a rule compiles the value of an attribute. -/
def holdsCode (name : String) : Bool :=
  (boundName? name).isSome || (listenerName? name).isSome || compiledNames.contains name ||
    namesDirective compiledDirectives name

/-- Whether the code of an attribute becomes an argument of a helper. -/
def feedsCall (tag name : String) : Bool :=
  (classParts ++ styleParts).contains name ||
    tag == "transition" &&
      ((boundName? name).isSome || name == "v-bind" || namesDirective ["html"] name)

/-- A source whose code may stand where an attribute puts it. -/
structure IsSourceFor (tag name source : String) : Prop where
  safe : IsSafeSource source
  plain : feedsCall tag name = true → IsUnfiltered source

instance (tag name source : String) : Decidable (IsSourceFor tag name source) :=
  decidable_of_iff (IsSafeSource source ∧ (feedsCall tag name = true → IsUnfiltered source))
    ⟨fun ⟨h₁, h₂⟩ => ⟨h₁, h₂⟩, fun h => ⟨h.safe, h.plain⟩⟩

variable {tag name source code : String}

theorem isSourceFor_unread (h : ∀ e, Expr.parse source ≠ .ok e) : IsSourceFor tag name source where
  safe e he := absurd he (h e)
  plain _ e he := absurd he (h e)

theorem isSourceFor_interpolate (code : String) : IsSourceFor tag name (interpolate code) := by
  have htext : interpolate code =
      String.ofList ('{' :: '{' :: ' ' :: (code.toList ++ [' ', '}', '}'])) := by
    rw [String.ext_iff]
    simp [interpolate]
  rw [htext]
  exact isSourceFor_unread (Expr.not_parse_braced (.inl rfl) _)

theorem isSourceFor_bindBack (code : String) : IsSourceFor tag name (bindBack code) := by
  have htext : bindBack code =
      String.ofList ('{' :: '=' :: ' ' :: (code.toList ++ [' ', '=', '}'])) := by
    rw [String.ext_iff]
    simp [bindBack]
  rw [htext]
  exact isSourceFor_unread (Expr.not_parse_braced (.inr rfl) _)

theorem isSound_code (hcode : IsCode source code) (hsafe : IsSafeSource source) : IsSound code := by
  obtain ⟨compiled, hcompile, rfl⟩ := hcode
  exact Expr.isSound_compile hcompile hsafe

theorem isInner_code (hcode : IsCode source code) (hsafe : IsSafeSource source)
    (hplain : IsUnfiltered source) : IsInner code := by
  obtain ⟨compiled, hcompile, rfl⟩ := hcode
  exact Expr.isInner_compile hcompile hsafe hplain

theorem feedsCall_transition (h : (boundName? name).isSome ∨ name = "v-bind") :
    feedsCall "transition" name = true := by
  rcases h with h | rfl
  · simp [feedsCall, h]
  · decide

/-! ## Copies -/

def eventParts (name : String) : String × List String :=
  splitModifiers ((listenerName? name).getD [])

/-- The attribute that takes over the value of another one as it stands. -/
def copied? (entry : String × String) : Option (String × String) :=
  if entry.1 = "ref" then some ("s-ref", entry.2)
  else if entry.1 = "v-dangerous-html" then some ("v-html", entry.2)
  else if entry.1 = "v-safe-html" then some ("v-html", "_sf(" ++ entry.2 ++ ")")
  else none

/-- The attributes of a head, also those that others of the same name hide, and their copies. -/
def everyAttr (h : Head) : List (String × String) :=
  let entries := h.attrs ++ h.declared.map fun a => (a.name, a.value)
  entries ++ entries.filterMap copied?

def hasLetterModifiers (name : String) : Bool :=
  (eventParts name).2.all (·.toList.all isLetter)

def hasLoopNames (l : Loop) : Bool := isLoopName l.item && l.iterator1.all isLoopName

/-- The attributes made from a head that hold more than code of the compiler: attributes of the
source, two-way bindings of directives, and modifiers and names of a loop that San takes for code. -/
inductive Copied (g : Head) : String × String → Prop
  | attr {entry : String × String} : entry ∈ everyAttr g → Copied g entry
  | target {entry : String × String} {code : String} : entry ∈ everyAttr g →
      (boundName? entry.1).isSome → ¬IsPropertyName (boundTarget entry.1) →
        Copied g (boundTarget entry.1, bindBack code)
  | modifiers {entry : String × String} {code : String} : entry ∈ everyAttr g →
      (listenerName? entry.1).isSome → hasLetterModifiers entry.1 = false →
        Copied g ("on-" ++ (eventParts entry.1).1,
          String.join ((eventParts entry.1).2.map (· ++ ":")) ++ code)
  | loop {l : Loop} {code : String} : g.extract.1.loop = some l → hasLoopNames l = false →
      Copied g ("s-for", Site.list.value g.extract.1 code)

/-- Whether a transition gets an option with a name that is no word, or with a San interpolation that
was not compiled. -/
def CopiesOption (g : Head) (attrs : Entries String) : Prop :=
  ∃ entry ∈ attrs, Expr.isWord (camelize entry.1) = false ∨
    Copied g entry ∧ interpolated? entry.2 ≠ none

/-- What comes of a head with parts of the source that are not compiled: its attributes, the options
of a transition, and the test of a component, if that is cut out of a San interpolation. -/
inductive Copies (g : Head) : String × String → Prop
  | attr {entry : String × String} : Copied g entry → Copies g entry
  | option {attrs : Entries String} : g.tag = "transition" → CopiesOption g attrs →
      Copies g ("s-transition", transitionCode attrs)
  | choice {entry : String × String} {inner : List Char} {test : String} : g.tag = "component" →
      entry ∈ everyAttr g → entry.1 = "is" → interpolated? entry.2 = some inner →
        test.toList <:+: inner → Copies g ("s-if", test)

/-! ## Attributes that can be left as they are -/

def wholeCode? (value : String) : Option String :=
  (interpolated? value).map fun inner => String.ofList (trim inner)

/-- An attribute that is a copy, or in which San finds nothing inadmissible. A transition and a
component may read its code. -/
structure Spoken (g : Head) (entry : String × String) : Prop where
  kept : Copied g entry ∨ keepsAdmitted entry.1 (some (readBack entry.2)) = true
  argument : g.tag = "transition" → ∀ code ∈ wholeCode? entry.2, Copied g entry ∨ IsInner code
  choice : g.tag = "component" → entry.1 = "is" → ∀ code ∈ wholeCode? entry.2,
    entry ∈ everyAttr g ∨ IsCodePart code.toList

theorem wholeCode?_eq_none {value : String} (h : ∀ rest, value.toList ≠ '{' :: '{' :: rest) :
    wholeCode? value = none := by
  unfold wholeCode? interpolated?
  split
  · rename_i rest heq
    exact absurd heq (h rest)
  · rfl

theorem not_braced_code (hblank : allBlank source = false) (hcode : IsCode source code)
    (hsafe : IsSafeSource source) (rest : List Char) : code.toList ≠ '{' :: '{' :: rest := by
  intro heq
  obtain ⟨compiled, hcompile, rfl⟩ := hcode
  obtain ⟨e, he⟩ := Expr.exists_parsed hblank hcompile
  obtain ⟨p, hp⟩ := Expr.exists_parsed_safe he hcompile (hsafe e he)
  rw [← String.ofList_toList (s := compiled.text), heq] at hp
  exact Expr.not_parse_braced (.inl rfl) rest p hp

theorem wholeCode?_interpolate (hcode : IsSound code) : wholeCode? (interpolate code) = some code := by
  have hlist : (interpolate code).toList =
      '{' :: '{' :: (' ' :: (code.toList ++ [' ']) ++ ['}', '}']) := by simp [interpolate]
  have hinner : interpolated? (interpolate code) = some (' ' :: (code.toList ++ [' '])) := by
    simp [interpolated?, hlist]
  rw [wholeCode?, hinner, Option.map_some, trim_between_spaces, hcode.trimmed, String.ofList_toList]

/-- An attribute whose value is a source if it is compiled, and which can be left as it is. -/
structure Ready (g : Head) (entry : String × String) : Prop where
  source : holdsCode entry.1 = true → IsSourceFor g.tag entry.1 entry.2
  spoken : Spoken g entry

section Attributes

variable {g : Head}

theorem spoken_of_whole (hcode : IsSound code)
    (hargument : g.tag = "transition" → IsInner code) : Spoken g (name, interpolate code) := by
  have hwhole := wholeCode?_interpolate hcode
  refine ⟨.inr (keepsAdmitted_interpolate hcode name), fun htag other hother => ?_,
    fun _ _ other hother => ?_⟩
  · obtain rfl := Option.some.inj (hwhole.symm.trans hother)
    exact .inr (hargument htag)
  · obtain rfl := Option.some.inj (hwhole.symm.trans hother)
    exact .inr hcode.isCodePart

theorem ready_interpolate (hcode : IsSound code) (hargument : g.tag = "transition" → IsInner code) :
    Ready g (name, interpolate code) :=
  ⟨fun _ => isSourceFor_interpolate code, spoken_of_whole hcode hargument⟩

theorem ready_true (name : String) : Ready g (name, interpolate "true") :=
  ready_interpolate (Expr.isInner_true.isSound rfl) fun _ => Expr.isInner_true

theorem spoken_of_not_whole {value : String}
    (hkept : Copied g (name, value) ∨ keepsAdmitted name (some (readBack value)) = true)
    (hwhole : wholeCode? value = none) : Spoken g (name, value) where
  kept := hkept
  argument _ code hcode := by
    rw [hwhole] at hcode
    cases hcode
  choice _ _ code hcode := by
    rw [hwhole] at hcode
    cases hcode

theorem ready_bindBack (hname : IsPropertyName name ∨ Copied g (name, bindBack code))
    (hcode : IsSound code) : Ready g (name, bindBack code) := by
  refine ⟨fun _ => isSourceFor_bindBack code, spoken_of_not_whole ?_ (wholeCode?_eq_none ?_)⟩
  · exact hname.symm.imp_right fun hname => keepsAdmitted_bindBack hcode.isCodePart hname
  · intro rest heq
    simp [bindBack] at heq

theorem ready_code {value : String} (hname : holdsCode name = false ∧ name ≠ "is")
    (hkept : Copied g (name, value) ∨ keepsAdmitted name (some (readBack value)) = true)
    (hshape : Copied g (name, value) ∨ ∀ rest, value.toList ≠ '{' :: '{' :: rest) :
    Ready g (name, value) := by
  refine ⟨fun hcode => ?_, hkept, fun _ code hcode => ?_, fun _ his => absurd his hname.2⟩
  · rw [hname.1] at hcode
    cases hcode
  · refine hshape.imp_right fun hshape => ?_
    rw [wholeCode?_eq_none hshape] at hcode
    cases hcode

/-- An attribute of the source is a copy of itself. -/
theorem ready_of_mem {entry : String × String} (h : entry ∈ everyAttr g)
    (hsource : holdsCode entry.1 = true → IsSourceFor g.tag entry.1 entry.2) : Ready g entry :=
  ⟨hsource, .inl (.attr h), fun _ _ _ => .inl (.attr h), fun _ _ _ _ => .inl h⟩

end Attributes

/-- A head whose sources have no point behind a whole number and no filter mark of their own, and no
filter where the code becomes an argument of a helper. -/
structure HasSafeSources (h : Head) : Prop where
  attrs : ∀ entry ∈ everyAttr h, holdsCode entry.1 = true → IsSourceFor h.tag entry.1 entry.2
  list : ∀ l ∈ h.extract.1.loop, IsSafeSource l.source ∧ IsUnfiltered l.source
  key : ∀ source ∈ h.extract.1.key, h.extract.1.loop.isSome → IsSafeSource source

instance (h : Head) : Decidable (HasSafeSources h) :=
  decidable_of_iff ((∀ entry ∈ everyAttr h, holdsCode entry.1 = true →
        IsSourceFor h.tag entry.1 entry.2) ∧
      (∀ l ∈ h.extract.1.loop, IsSafeSource l.source ∧ IsUnfiltered l.source) ∧
      ∀ source ∈ h.extract.1.key, h.extract.1.loop.isSome → IsSafeSource source)
    ⟨fun ⟨h₁, h₂, h₃⟩ => ⟨h₁, h₂, h₃⟩, fun h => ⟨h.attrs, h.list, h.key⟩⟩

/-! ## Attributes under work -/

structure Placed (g : Head) (entry : String × String) : Prop extends Ready g entry where
  target : (boundName? entry.1).isSome → ∀ code, IsPropertyName (boundTarget entry.1) ∨
    Copied g (boundTarget entry.1, bindBack code)
  copy : ∀ derived ∈ copied? entry, Ready g derived

/-- A name that no later rule reads. -/
structure IsPlainName (name : String) : Prop where
  bound : boundName? name = none
  uncopied : ∀ value, copied? (name, value) = none

section Heads

variable {g h : Head} {steps : List Step}

theorem Ready.placed {entry : String × String} (h : Ready g entry)
    (hname : IsPlainName entry.1) : Placed g entry where
  toReady := h
  target hbound := by
    rw [hname.bound] at hbound
    cases hbound
  copy derived hderived := by
    rw [hname.uncopied entry.2] at hderived
    cases hderived

def plainNames : List String :=
  ["s-if", "s-else-if", "s-else", "s-for", "checked", "value", "v-html", "s-html", "s-ref", "class",
   "style", "s-bind"]

theorem isPlainName_fixed (hname : name ∈ plainNames) : IsPlainName name := by
  have hall : ∀ name ∈ plainNames, boundName? name = none ∧
      name ∉ ["ref", "v-dangerous-html", "v-safe-html"] := by decide +kernel
  obtain ⟨hbound, hcopied⟩ := hall name hname
  simp only [List.mem_cons, List.not_mem_nil, or_false, not_or] at hcopied
  exact ⟨hbound, fun value => by simp [copied?, hcopied]⟩

theorem filledValue_cases (tag name value : String) :
    filledValue tag name value = value ∨
      value = "" ∧ filledValue tag name value = interpolate "true" := by
  unfold filledValue
  split
  · rename_i h
    rw [Bool.and_eq_true, Bool.and_eq_true, String.isEmpty_iff] at h
    exact .inr ⟨h.1.1, rfl⟩
  · exact .inl rfl

structure IsPlaced (g h : Head) : Prop where
  tag : h.tag = g.tag
  attrs : ∀ entry ∈ h.attrs, Placed g entry
  directives : ∀ d ∈ h.directives, d.name ∈ compiledDirectives → IsSafeSource d.value ∧
    (g.tag = "transition" → d.name = "html" → IsUnfiltered d.value)
  bound : ∀ source, h.classBinding = some source ∨ h.styleBinding = some source →
    ∀ code, IsCode source code → IsInner code
  fixedStyle : ∀ style ∈ h.staticStyle, IsInner style

def WritesReady (g : Head) (steps : List Step) : Prop :=
  ∀ s ∈ steps, ∀ entry ∈ s.written?, Ready g entry ∧ IsPlainName entry.1

namespace WritesReady

variable {steps' : List Step} {old value : String}

theorem nil : WritesReady g [] := by
  intro s hs
  cases hs

theorem append (h : WritesReady g steps) (h' : WritesReady g steps') :
    WritesReady g (steps ++ steps') :=
  List.forall_mem_append.2 ⟨h, h'⟩

theorem cons {s : Step} (h : ∀ entry ∈ s.written?, Ready g entry ∧ IsPlainName entry.1)
    (hsteps : WritesReady g steps) : WritesReady g (s :: steps) :=
  List.forall_mem_cons.2 ⟨h, hsteps⟩

theorem put (h : Ready g (name, value)) (hname : IsPlainName name) :
    WritesReady g [.put old name value] := by
  refine cons ?_ nil
  intro entry hentry
  obtain rfl := Option.some.inj hentry
  exact ⟨h, hname⟩

theorem drops (names : List String) : WritesReady g (names.map .drop) := by
  intro s hs entry hentry
  obtain ⟨name, -, rfl⟩ := List.mem_map.1 hs
  cases hentry

end WritesReady

theorem IsPlaced.run (hh : IsPlaced g h) (hsteps : WritesReady g steps) :
    IsPlaced g (h.run steps) := by
  rw [Head.run_eq]
  refine ⟨hh.tag, fun entry hentry => ?_, hh.directives, hh.bound, hh.fixedStyle⟩
  rcases mem_attrs_run hentry with ⟨hentry, -⟩ | ⟨s, hs, hwritten⟩
  · exact hh.attrs entry hentry
  · obtain ⟨hready, hname⟩ := hsteps s hs entry hwritten
    exact hready.placed hname

theorem IsPlaced.attr (hh : IsPlaced g h) (hname : holdsCode name = true)
    (hattr : h.attr? name = some source) : IsSourceFor g.tag name source :=
  (hh.attrs _ (Entries.mem_of_get? hattr)).source hname

/-! ## What a head becomes first -/

theorem mem_everyAttr {entry : String × String}
    (h : entry ∈ g.attrs ∨ ∃ a ∈ g.declared, (a.name, a.value) = entry) :
    entry ∈ everyAttr g ∧ ∀ derived ∈ copied? entry, derived ∈ everyAttr g := by
  have hmem : entry ∈ g.attrs ++ g.declared.map fun a => (a.name, a.value) :=
    List.mem_append.2 (h.imp_right List.mem_map.2)
  exact ⟨List.mem_append_left _ hmem, fun derived hderived =>
    List.mem_append_right _ (List.mem_filterMap.2 ⟨entry, hmem, hderived⟩)⟩

theorem mem_everyAttr_of_declared {a : Attr} (ha : a ∈ g.declared) :
    (a.name, a.value) ∈ everyAttr g :=
  (mem_everyAttr (.inr ⟨a, ha, rfl⟩)).1

namespace HasSafeSources

theorem filled (hg : HasSafeSources g) (hname : holdsCode name = true)
    (hfilled : g.filled? name = some source) :
    allBlank source = false ∧ IsSourceFor g.tag name source := by
  obtain ⟨hattr, hblank⟩ := Option.filter_eq_some_iff.1 hfilled
  exact ⟨by simpa using hblank,
    hg.attrs _ (mem_everyAttr (.inl (Entries.mem_of_get? hattr))).1 hname⟩

theorem bound (hg : HasSafeSources g) (hcolon : holdsCode (":" ++ name) = true)
    (hbind : holdsCode ("v-bind:" ++ name) = true) (hbound : g.bound? name = some source) :
    IsSourceFor g.tag (":" ++ name) source ∨ IsSourceFor g.tag ("v-bind:" ++ name) source := by
  rw [Head.bound?, Option.orElse_eq_or, Option.or_eq_some_iff] at hbound
  rcases hbound with hfilled | ⟨-, hfilled⟩
  · exact .inl (hg.filled hcolon hfilled).2
  · exact .inr (hg.filled hbind hfilled).2

end HasSafeSources

theorem holdsCode_of_listener (h : (listenerName? name).isSome) : holdsCode name = true := by
  simp [holdsCode, h]

theorem holdsCode_of_bound (h : (boundName? name).isSome) : holdsCode name = true := by
  simp [holdsCode, h]

theorem namesDirective_of_directive {a : Attr} {d : Directive} (h : a.directive? = some d)
    {directives : List String} (hname : d.name ∈ directives) :
    namesDirective directives a.name = true := by
  unfold namesDirective Attr.directive?
  unfold Attr.directive? at h
  dsimp only
  split at h
  · cases h
  · split at h
    · cases h
    · obtain ⟨hdirective, h⟩ := Option.ite_none_left_eq_some.1 h
      obtain rfl := Option.some.inj h
      rw [if_neg hdirective, Option.any_some, List.contains_iff_mem]
      exact hname

/-- The sanitiser is never called with the value of an empty attribute: that is no code. -/
theorem ready_sanitised : Ready g ("v-html", "_sf(" ++ interpolate "true" ++ ")") := by
  have hunread : (Expr.parse ("_sf(" ++ interpolate "true" ++ ")")).toOption.isNone = true := by
    decide +kernel
  refine ⟨fun _ => isSourceFor_unread fun e he => ?_,
    spoken_of_not_whole (.inr (by decide +kernel)) (by decide)⟩
  rw [he] at hunread
  cases hunread

theorem ready_copied {derived : String × String}
    (h : copied? (name, interpolate "true") = some derived) : Ready g derived := by
  unfold copied? at h
  split at h
  · obtain rfl := Option.some.inj h
    exact ready_true _
  · split at h
    · obtain rfl := Option.some.inj h
      exact ready_true _
    · split at h
      · obtain rfl := Option.some.inj h
        exact ready_sanitised
      · cases h

theorem HasSafeSources.placed_fillEmpty (hg : HasSafeSources g) :
    IsPlaced g (fillEmpty g.extract.1) := by
  refine ⟨rfl, fun entry hentry => ?_, fun d hd => ?_, fun source hsource code hcode => ?_,
    fun style hstyle => ?_⟩
  · rw [fillEmpty_attrs] at hentry
    obtain ⟨⟨name, value⟩, hmem, rfl⟩ := List.mem_map.1 hentry
    obtain ⟨hevery, hcopies⟩ := mem_everyAttr (.inl hmem)
    have htarget : (boundName? name).isSome → ∀ code, IsPropertyName (boundTarget name) ∨
        Copied g (boundTarget name, bindBack code) := by
      intro hbound code
      by_cases hname : IsPropertyName (boundTarget name)
      · exact .inl hname
      · exact .inr (@Copied.target g (name, value) code hevery hbound hname)
    rcases filledValue_cases g.tag name value with heq | ⟨-, heq⟩
    · exact heq.symm ▸ ⟨ready_of_mem hevery (hg.attrs _ hevery), htarget,
        fun d hd => ready_of_mem (hcopies d hd) (hg.attrs _ (hcopies d hd))⟩
    · exact heq.symm ▸ ⟨ready_true name, htarget, fun d hd => ready_copied hd⟩
  · obtain ⟨a, ha, hdirective⟩ := List.mem_filterMap.1 hd
    intro hcompiled
    have hsource := hg.attrs _ (mem_everyAttr_of_declared ha)
      (by simp [holdsCode, namesDirective_of_directive hdirective hcompiled])
    rw [(directive?_eq_some hdirective).2]
    refine ⟨hsource.safe, fun htag hname => hsource.plain ?_⟩
    have hhtml := namesDirective_of_directive hdirective (List.mem_singleton.2 hname)
    simp [feedsCall, htag, hhtml]
  · rcases hsource with hclass | hstyle
    · obtain hfor | hfor := hg.bound (by decide) (by decide) hclass
      · exact isInner_code hcode hfor.safe (hfor.plain (by simp [feedsCall, classParts]))
      · exact isInner_code hcode hfor.safe (hfor.plain (by simp [feedsCall, classParts]))
    · obtain hfor | hfor := hg.bound (by decide) (by decide) hstyle
      · exact isInner_code hcode hfor.safe (hfor.plain (by simp [feedsCall, styleParts]))
      · exact isInner_code hcode hfor.safe (hfor.plain (by simp [feedsCall, styleParts]))
  · obtain ⟨text, -, rfl⟩ := Option.map_eq_some_iff.1 hstyle
    exact Expr.isInner_styleObject _

end Heads

/-! ## Tests, loops, listeners and models -/

section Opening

variable {g : Head} {steps : List Step}

theorem ready_test (hname : name = "s-if" ∨ name = "s-else-if") (hsafe : IsSafeSource source)
    (hblank : allBlank source = false) (hcode : IsCode source code) : Ready g (name, code) := by
  have hsound := isSound_code hcode hsafe
  have hshape := not_braced_code hblank hcode hsafe
  rcases hname with rfl | rfl
  · exact ready_code (by decide) (.inr (keepsAdmitted_code hsound.isCodePart (by decide))) (.inr hshape)
  · exact ready_code (by decide) (.inr (keepsAdmitted_code hsound.isCodePart (by decide))) (.inr hshape)

theorem ready_else : Ready g ("s-else", "") :=
  ready_code (by decide) (.inr (by decide +kernel)) (.inr fun rest heq => by cases heq)

theorem TestSteps.ready {test : Option String} {old new : String}
    (ht : TestSteps test old new steps) (hnew : new = "s-if" ∨ new = "s-else-if")
    (htest : ∀ source ∈ test, allBlank source = false ∧ IsSafeSource source) :
    WritesReady g steps := by
  rcases ht with ⟨-, rfl⟩ | ⟨source, code, hsource, hcode, rfl⟩
  · exact .nil
  · obtain ⟨hblank, hsafe⟩ := htest source hsource
    exact .put (ready_test hnew hsafe hblank hcode)
      (isPlainName_fixed (by rcases hnew with rfl | rfl <;> decide))

theorem elseSteps_ready (h : Head) : WritesReady g (elseSteps h) := by
  unfold elseSteps
  split
  · exact .put ready_else (isPlainName_fixed (by decide))
  · exact .nil

theorem isInner_list {l : Loop} (h : IsSafeSource l.source ∧ IsUnfiltered l.source)
    (hcode : IsCode l.source code) : IsInner ("_l(" ++ code ++ ")") :=
  @Expr.IsInner.call "_l" (by decide) [code]
    (List.forall_mem_singleton.2 (isInner_code hcode h.1 h.2))

theorem LoopSteps.ready (hg : HasSafeSources g) (hl : LoopSteps g.extract.1 steps) :
    WritesReady g steps := by
  rcases hl with ⟨-, rfl⟩ | ⟨l, code, hloop, hcode, rfl⟩
  · exact .nil
  · have hready : Ready g ("s-for", Site.list.value g.extract.1 code) := by
      cases hnames : hasLoopNames l with
      | false => exact ready_code (by decide) (.inl (.loop hloop hnames)) (.inl (.loop hloop hnames))
      | true =>
        rw [hasLoopNames, Bool.and_eq_true, Option.all_eq_true] at hnames
        exact ready_code (by decide) (.inr (keepsAdmitted_loop hloop hnames.1 hnames.2
          (fun source hsource => hg.key source hsource (by rw [hloop]; rfl))
          (isInner_list (hg.list l hloop) hcode)))
          (.inr (San.not_braced_loop hloop hnames.1 code))
    exact .append (.put hready (isPlainName_fixed (by decide))) (.drops keyAttrs)

theorem holdsCode_listener (event : String) : holdsCode ("on-" ++ event) = false := by
  have hnames : compiledNames.contains ("on-" ++ event) = false := by
    rw [Bool.eq_false_iff, ne_eq, List.contains_iff_mem]
    intro hmem
    have hfirst := (show ∀ name ∈ compiledNames, name.toList.head? = some 'v' by decide) _ hmem
    simp at hfirst
  rw [holdsCode, hnames]
  simp [boundName?, listenerName?, namesDirective, Attr.directive?, stripStart?, List.isPrefixOf]

theorem not_braced_handler {modifiers : List String}
    (hmodifiers : ∀ m ∈ modifiers, ∀ c ∈ m.toList, isLetter c = true)
    (hcode : ∀ rest, code.toList ≠ '{' :: '{' :: rest) (rest : List Char) :
    (String.join (modifiers.map (· ++ ":")) ++ code).toList ≠ '{' :: '{' :: rest := by
  intro heq
  cases modifiers with
  | nil => exact hcode rest (by simpa using heq)
  | cons m modifiers =>
    have hletters := hmodifiers m List.mem_cons_self
    have hfirst : (String.join ((m :: modifiers).map (· ++ ":")) ++ code).toList.head? =
        some (m.toList.head?.getD ':') := by
      cases hm : m.toList <;> simp [String.join_cons, hm]
    rw [heq] at hfirst
    cases hm : m.toList with
    | nil => simp [hm] at hfirst
    | cons c cs =>
      rw [hm] at hfirst hletters
      obtain rfl := Option.some.inj hfirst
      exact absurd (hletters '{' List.mem_cons_self) (by decide)

theorem isPlainName_listener (event : String) : IsPlainName ("on-" ++ event) where
  bound := by simp [boundName?, stripStart?, String.toList_append]
  uncopied value := by
    have hne : ∀ other : String, other.toList.head? ≠ some 'o' → "on-" ++ event ≠ other := by
      rintro other hother rfl
      exact hother (by simp)
    simp only [copied?, hne "ref" (by decide), hne "v-dangerous-html" (by decide),
      hne "v-safe-html" (by decide), if_false]

theorem ListenerStep.ready {a : Attr} {s : Step} (hs : ListenerStep a s)
    (ha : (a.name, a.value) ∈ everyAttr g) (hsafe : IsSafeSource a.value)
    (hname : (listenerName? a.name).isSome) : WritesReady g [s] := by
  obtain ⟨handler, hhandler, rfl⟩ := hs
  obtain ⟨hsound, hshape⟩ : IsSound handler ∧ ∀ rest, handler.toList ≠ '{' :: '{' :: rest := by
    rcases hhandler with ⟨-, rfl⟩ | ⟨hblank, hcode⟩
    · exact ⟨(Expr.isInner_name (by decide)).isSound rfl, fun rest heq => by cases heq⟩
    · exact ⟨isSound_code hcode hsafe, not_braced_code hblank hcode hsafe⟩
  have hparts : listenerParts a = eventParts a.name := rfl
  rw [hparts]
  have hon : holdsCode ("on-" ++ (eventParts a.name).1) = false ∧
      "on-" ++ (eventParts a.name).1 ≠ "is" := by
    refine ⟨holdsCode_listener _, fun heq => ?_⟩
    have hlist := congrArg String.toList heq
    simp [String.toList_append] at hlist
  refine .put ?_ (isPlainName_listener _)
  cases hletters : hasLetterModifiers a.name with
  | false =>
    have hcopied := @Copied.modifiers g (a.name, a.value) handler ha hname hletters
    exact ready_code hon (.inl hcopied) (.inl hcopied)
  | true =>
    simp only [hasLetterModifiers, List.all_eq_true] at hletters
    exact ready_code hon (.inr (keepsAdmitted_handler hletters hsound.isCodePart _))
      (.inr (not_braced_handler hletters hshape))

theorem listeners_ready {listeners : List Attr} (hl : List.Forall₂ ListenerStep listeners steps)
    (h : ∀ a ∈ listeners, (a.name, a.value) ∈ everyAttr g ∧ IsSafeSource a.value ∧
      (listenerName? a.name).isSome) : WritesReady g steps := by
  induction hl with
  | nil => exact .nil
  | cons hs _ ih =>
    rw [List.forall_mem_cons] at h
    exact (hs.ready h.1.1 h.1.2.1 h.1.2.2).append (ih h.2)

theorem ModelSteps.ready {h : Head} (hm : ModelSteps h steps) (hh : IsPlaced g h) :
    WritesReady g steps := by
  rcases hm with ⟨-, rfl⟩ | ⟨d, code, hd, hcode, rfl⟩
  · exact .nil
  · have hmodel : d.name = "model" := by simpa using List.find?_some hd
    have hsafe := (hh.directives d (List.mem_of_find?_eq_some hd) (hmodel ▸ by decide)).1
    have hname : IsPropertyName (modelAttr h) ∧ modelAttr h ∈ plainNames := by
      unfold modelAttr
      split <;> decide
    exact .put (ready_bindBack (.inl hname.1) (isSound_code hcode hsafe)) (isPlainName_fixed hname.2)

theorem Opening.ready (hg : HasSafeSources g) (ho : Opening g.extract.1 steps) :
    WritesReady g steps := by
  obtain ⟨htest, hbranch, hloop, hlisteners, hmodel⟩ := ho
  have hfilled : ∀ {name}, holdsCode name = true → ∀ source ∈ g.filled? name,
      allBlank source = false ∧ IsSafeSource source := fun hname source hsource =>
    (hg.filled hname hsource).imp_right (·.safe)
  have hfirst : WritesReady g _ := htest.ready (.inl rfl) (hfilled (by decide))
  have hsecond : WritesReady g _ := hbranch.ready (.inr rfl) (hfilled (by decide))
  have hheard : WritesReady g _ := listeners_ready hlisteners fun a ha => by
    obtain ⟨hdeclared, hname⟩ := List.mem_filter.1 ha
    have hevery := mem_everyAttr_of_declared (g := g) hdeclared
    exact ⟨hevery, (hg.attrs _ hevery (holdsCode_of_listener hname)).safe, hname⟩
  have hbefore := (((hfirst.append hsecond).append (elseSteps_ready g.extract.1)).append
    (hloop.ready hg)).append hheard
  exact hbefore.append (hmodel.ready (hg.placed_fillEmpty.run hbefore))

end Opening

end VueToSan.Transform
