import VueToSan.Proofs.SourceKeys
import Mathlib.Data.List.Forall2

/-!
# Filled attributes

The rules run with and without the one that fills empty attributes. As long as no rule reads the
value of an attribute that is filled, both runs end alike: what they leave differs in attributes
that were empty, and in nothing that was compiled or merged. A rule that reads such a value makes a
difference: an empty class that is merged has the marker for true as a fixed class.
-/

namespace VueToSan.Transform

open VueToSan.Markup VueToSan.Text

/-! ## Entries side by side -/

/-- Entries that are the same but for empty values, which are filled at some names with `N`. -/
def Filled (N : String → Prop) (m m' : Entries String) : Prop :=
  List.Forall₂ (fun a b => b = a ∨ N a.1 ∧ a.2 = "" ∧ b = (a.1, interpolate "true")) m m'

namespace Filled

variable {N : String → Prop} {m m' : Entries String}

theorem keys (h : Filled N m m') : m'.keys = m.keys := by
  induction h with
  | nil => rfl
  | cons hentry _ ih =>
    obtain rfl | ⟨-, -, rfl⟩ := hentry
    · exact congrArg (_ :: ·) ih
    · exact congrArg (_ :: ·) ih

theorem has_eq (h : Filled N m m') (name : String) : m'.has name = m.has name := by
  have hany : ∀ m : Entries String, m.has name = m.keys.any (· == name) := fun m => by
    rw [Entries.keys, List.any_map]
    rfl
  rw [hany, hany, h.keys]

theorem get?_or (h : Filled N m m') (name : String) : m'.get? name = m.get? name ∨
    N name ∧ m.get? name = some "" ∧ m'.get? name = some (interpolate "true") := by
  induction h with
  | nil => exact .inl rfl
  | @cons a b _ _ hentry _ ih =>
    rw [Entries.get?_cons, Entries.get?_cons]
    obtain rfl | ⟨hname, hempty, rfl⟩ := hentry
    · split
      · exact .inl rfl
      · exact ih
    · split
      · rename_i heq
        subst heq
        exact .inr ⟨hname, congrArg some hempty, rfl⟩
      · exact ih

theorem get?_eq (h : Filled N m m') {name : String} (hname : ¬ N name) :
    m'.get? name = m.get? name :=
  (h.get?_or name).resolve_right fun hfilled => hname hfilled.1

theorem swap (h : Filled N m m') (old : String) (entry : String × String) :
    Filled N (m.swap old entry) (m'.swap old entry) := by
  induction h with
  | nil => exact .nil
  | cons hentry _ ih =>
    refine .cons ?_ ih
    obtain rfl | ⟨hname, hempty, rfl⟩ := hentry
    · exact .inl rfl
    · dsimp only
      split
      · exact .inl rfl
      · exact .inr ⟨hname, hempty, rfl⟩

theorem erase (h : Filled N m m') (name : String) : Filled N (m.erase name) (m'.erase name) := by
  induction h with
  | nil => exact .nil
  | @cons a b _ _ hentry _ ih =>
    have hsame : b.1 = a.1 := by
      obtain rfl | ⟨-, -, rfl⟩ := hentry <;> rfl
    unfold Entries.erase at ih ⊢
    rw [List.filter_cons, List.filter_cons, hsame]
    split
    · exact .cons hentry ih
    · exact ih

theorem set (h : Filled N m m') (name value : String) :
    Filled N (m.set name value) (m'.set name value) := by
  rw [Entries.set, Entries.set, h.has_eq]
  split
  · exact h.swap name (name, value)
  · exact List.rel_append h (.cons (.inl rfl) .nil)

theorem replace (h : Filled N m m') (old new value : String) :
    Filled N (m.replace old new value) (m'.replace old new value) := by
  rw [Entries.replace, Entries.replace, h.has_eq, (h.erase old).has_eq]
  split
  · exact h.swap old (new, value)
  · exact (h.erase old).set new value

theorem restrict {P : String → Prop} (h : Filled N m m')
    (hnames : ∀ name, m'.has name → P name) : Filled (fun name => N name ∧ P name) m m' := by
  induction h with
  | nil => exact .nil
  | @cons a b _ _ hentry _ ih =>
    refine .cons ?_ (ih fun name hname => hnames name ?_)
    · obtain rfl | ⟨hname, hempty, rfl⟩ := hentry
      · exact .inl rfl
      · exact .inr ⟨⟨hname, hnames a.1 (by simp [Entries.has_cons])⟩, hempty, rfl⟩
    · rw [Entries.has_cons, hname, Bool.or_true]

end Filled

/-! ## Heads side by side -/

def IsFilled (h : Head) (name : String) : Prop :=
  (name, "") ∈ h.attrs ∧ isPresence h.tag name = false ∧ isValueless name = false

/-- Whether some rule reads the value that an attribute then has. Rules that read a value from the
directive fields do not count. -/
def readsValue (h : Head) (name : String) : Bool :=
  ["ref", "v-show", "v-bind", "v-safe-html", "v-dangerous-html"].contains name ||
    (boundName? name).isSome || (name == "class" && h.classBinding.isSome) ||
    (name == "is" && h.tag == "component")

inductive FilledHead (N : String → Prop) (h : Head) : Head → Prop
  | intro {m : Entries String} (hattrs : Filled N h.attrs m) : FilledHead N h { h with attrs := m }

theorem filledHead_fillEmpty (h : Head) : FilledHead (IsFilled h) h (fillEmpty h) := by
  refine .intro (List.forall₂_map_right_iff.2 (List.forall₂_same.2 ?_))
  rintro ⟨name, value⟩ hentry
  dsimp only
  split
  · rename_i hfills
    simp only [Bool.and_eq_true, Bool.not_eq_true', String.isEmpty_iff] at hfills
    obtain ⟨⟨rfl, hpresence⟩, hvalueless⟩ := hfills
    exact .inr ⟨⟨hentry, hpresence, hvalueless⟩, rfl, rfl⟩
  · exact .inl rfl

/-- Heads under work: no rule reads a value that is filled. -/
structure Follows (N : String → Prop) (h h' : Head) : Prop where
  filled : FilledHead N h h'
  unread : ∀ name, N name → readsValue h name = false

section Heads

variable {N : String → Prop} {h h' : Head}

theorem Follows.same (hh : Follows N h h') {α : Type} (part : Head → α)
    (hpart : ∀ h m, part { h with attrs := m } = part h) : part h' = part h := by
  obtain ⟨⟨_⟩, -⟩ := hh
  exact hpart h _

theorem Follows.hasAttr_eq (hh : Follows N h h') (name : String) :
    h'.hasAttr name = h.hasAttr name := by
  obtain ⟨⟨hattrs⟩, -⟩ := hh
  exact hattrs.has_eq name

theorem Follows.attr?_eq (hh : Follows N h h') (name : String) (hread : readsValue h name) :
    h'.attr? name = h.attr? name := by
  obtain ⟨⟨hattrs⟩, hunread⟩ := hh
  exact hattrs.get?_eq fun hname => Bool.eq_false_iff.1 (hunread name hname) hread

theorem FilledHead.setAttr (hh : FilledHead N h h') (name value : String) :
    FilledHead N (h.setAttr name value) (h'.setAttr name value) := by
  obtain ⟨hattrs⟩ := hh
  exact .intro (hattrs.set name value)

theorem FilledHead.removeAttr (hh : FilledHead N h h') (name : String) :
    FilledHead N (h.removeAttr name) (h'.removeAttr name) := by
  obtain ⟨hattrs⟩ := hh
  exact .intro (hattrs.erase name)

theorem FilledHead.replaceAttr (hh : FilledHead N h h') (old new value : String) :
    FilledHead N (h.replaceAttr old new value) (h'.replaceAttr old new value) := by
  obtain ⟨hattrs⟩ := hh
  exact .intro (hattrs.replace old new value)

theorem FilledHead.retag (hh : FilledHead N h h') (tag : String) :
    FilledHead N { h with tag := tag } { h' with tag := tag } := by
  obtain ⟨hattrs⟩ := hh
  exact .intro hattrs

theorem Follows.setAttr (hh : Follows N h h') (name value : String) :
    Follows N (h.setAttr name value) (h'.setAttr name value) :=
  ⟨hh.filled.setAttr name value, hh.unread⟩

theorem Follows.removeAttr (hh : Follows N h h') (name : String) :
    Follows N (h.removeAttr name) (h'.removeAttr name) :=
  ⟨hh.filled.removeAttr name, hh.unread⟩

theorem Follows.replaceAttr (hh : Follows N h h') (old new value : String) :
    Follows N (h.replaceAttr old new value) (h'.replaceAttr old new value) :=
  ⟨hh.filled.replaceAttr old new value, hh.unread⟩

theorem Follows.removeAttrs (hh : Follows N h h') (names : List String) :
    Follows N (names.foldl (·.removeAttr ·) h) (names.foldl (·.removeAttr ·) h') := by
  induction names generalizing h h' with
  | nil => exact hh
  | cons name names ih => exact ih (hh.removeAttr name)

theorem Follows.mergeAttr (hh : Follows N h h') (name : String) (parts : List String)
    (value : String) :
    Follows N (mergeAttr h name parts value) (mergeAttr h' name parts value) := by
  have hanchor : parts.find? h'.hasAttr = parts.find? h.hasAttr :=
    congrArg parts.find? (funext hh.hasAttr_eq)
  refine Follows.removeAttrs ?_ parts
  rw [hh.hasAttr_eq, hanchor]
  split
  · exact hh.setAttr name value
  · split
    · exact hh.replaceAttr _ name value
    · exact hh.setAttr name value

/-! ## Rules on heads -/

abbrev EndFollows (N : String → Prop) : Edit Head → Edit Head → Prop :=
  Edit.Related (Follows N) fun _ _ => True

theorem follows_renameTest (hh : Follows N h h') (test : Option String) (old new : String) :
    EndFollows N (renameTest test old new h) (renameTest test old new h') := by
  unfold renameTest
  split
  · exact .done hh
  · exact .withCompiled trivial fun compiled => .done (hh.replaceAttr old new compiled.text)

theorem follows_conditional (hh : Follows N h h') :
    EndFollows N (transformConditional h) (transformConditional h') := by
  have htest := hh.same (·.ifTest) fun _ _ => rfl
  rw [transformConditional, transformConditional, htest]
  refine (follows_renameTest hh _ _ _).andThen fun a c hac => ?_
  have hbranch := hac.same (·.elseIfTest) fun _ _ => rfl
  rw [hbranch]
  refine (follows_renameTest hac _ _ _).andThen fun b d hbd => ?_
  have helse := hbd.same (·.hasElse) fun _ _ => rfl
  rw [helse]
  split
  · exact .done (hbd.replaceAttr _ _ _)
  · exact .done hbd

theorem follows_setLoop (hh : Follows N h h') (value : String) :
    Follows N (setLoop h value) (setLoop h' value) :=
  (hh.replaceAttr _ _ _).removeAttrs keyAttrs

theorem follows_loop (hh : Follows N h h') :
    EndFollows N (transformLoop h) (transformLoop h') := by
  have hloop := hh.same (·.loop) fun _ _ => rfl
  have hkey := hh.same (·.key) fun _ _ => rfl
  unfold transformLoop
  rw [hloop, hkey]
  split
  · exact .done hh
  · refine .withCompiled trivial fun list => ?_
    split
    · exact .done (follows_setLoop hh _)
    · exact .withCompiled trivial fun key => .done (follows_setLoop hh _)

theorem follows_listener (a : Attr) (hh : Follows N h h') :
    EndFollows N (transformListener a h) (transformListener a h') := by
  unfold transformListener
  split
  · exact .done hh
  · dsimp only
    split
    · exact .done (hh.replaceAttr _ _ _)
    · exact .withCompiled trivial fun compiled => .done (hh.replaceAttr _ _ _)

theorem follows_listeners (hh : Follows N h h') :
    EndFollows N (transformListeners h) (transformListeners h') := by
  have hdeclared := hh.same (·.declared) fun _ _ => rfl
  unfold transformListeners
  rw [hdeclared]
  exact .each (fun a _ _ _ => follows_listener a) hh

theorem Follows.modelAttr_eq (hh : Follows N h h') : modelAttr h' = modelAttr h := by
  obtain ⟨⟨hattrs⟩, -⟩ := hh
  unfold modelAttr Head.attr?
  obtain heq | ⟨-, hempty, hfilled⟩ := hattrs.get?_or "type"
  · rw [heq]
  · rw [hempty, hfilled]
    rfl

theorem follows_model (hh : Follows N h h') :
    EndFollows N (transformModel h) (transformModel h') := by
  have hdirective := hh.same (·.directive? "model") fun _ _ => rfl
  unfold transformModel
  rw [hdirective, hh.modelAttr_eq]
  split
  · exact .done hh
  · refine .withCompiled trivial fun compiled => ?_
    split
    · exact .done (hh.replaceAttr _ _ _)
    · exact .failed _ trivial

theorem follows_renameHtml (hh : Follows N h h') (form : String) (wrap : String → String)
    (hform : readsValue h ("v-" ++ form)) :
    Follows N (renameHtml form wrap h) (renameHtml form wrap h') := by
  unfold renameHtml
  rw [hh.attr?_eq _ hform]
  split
  · exact hh
  · rename_i value _
    obtain ⟨⟨hattrs⟩, hunread⟩ := hh
    have hrenamed : Follows N
        { h with directives := renameDirective form (wrap value) h.directives } _ :=
      ⟨.intro hattrs, hunread⟩
    exact hrenamed.replaceAttr _ _ _

theorem follows_boundRef (hh : Follows N h h') {key : String} (hkey : (boundName? key).isSome) :
    EndFollows N (transformBoundRef key h) (transformBoundRef key h') := by
  unfold transformBoundRef
  rw [hh.attr?_eq key (by simp [readsValue, hkey])]
  split
  · exact .done hh
  · exact .withCompiled trivial fun compiled => .done (hh.replaceAttr _ _ _)

theorem follows_class (hh : Follows N h h') :
    EndFollows N (transformClass h) (transformClass h') := by
  have hbinding := hh.same (·.classBinding) fun _ _ => rfl
  unfold transformClass
  rw [hbinding]
  split
  · exact .done hh
  · rename_i source hsource
    rw [hh.attr?_eq "class" (by simp [readsValue, hsource])]
    exact .withCompiled trivial fun compiled => .done (hh.mergeAttr _ _ _)

theorem follows_mergeStyle (hh : Follows N h h') (parts : List String) :
    Follows N (mergeStyle h parts) (mergeStyle h' parts) := by
  have hstatic := hh.same (·.staticStyle) fun _ _ => rfl
  rw [mergeStyle, mergeStyle, hstatic]
  exact hh.mergeAttr _ _ _

theorem follows_style (hh : Follows N h h') :
    EndFollows N (transformStyle h) (transformStyle h') := by
  have hbinding := hh.same (·.styleBinding) fun _ _ => rfl
  unfold transformStyle
  rw [hbinding, hh.attr?_eq "v-show" rfl]
  split
  · exact .done hh
  · exact .withCompiled trivial fun bound => .done (follows_mergeStyle hh _)
  · exact .withCompiled trivial fun shown => .done (follows_mergeStyle hh _)
  · exact .withCompiled trivial fun bound =>
      .withCompiled trivial fun shown => .done (follows_mergeStyle hh _)

theorem follows_spread (hh : Follows N h h') :
    EndFollows N (transformSpread h) (transformSpread h') := by
  unfold transformSpread
  rw [hh.attr?_eq "v-bind" rfl]
  split
  · exact .done hh
  · exact .withCompiled trivial fun compiled => .done (hh.replaceAttr _ _ _)

/-! ## Rules that collect -/

inductive FollowsWith (N : String → Prop) : Head × Context → Head × Context → Prop
  | intro {h h' : Head} (hh : Follows N h h') (context : Context) :
    FollowsWith N (h, context) (h', context)

abbrev EndFollowsWith (N : String → Prop) :
    Edit (Head × Context) → Edit (Head × Context) → Prop :=
  Edit.Related (FollowsWith N) fun _ _ => True

theorem follows_fixedRef (hh : Follows N h h') (context : Context) :
    FollowsWith N (transformFixedRef h context) (transformFixedRef h' context) := by
  have hroot := hh.same (·.isRoot) fun _ _ => rfl
  unfold transformFixedRef
  rw [hh.attr?_eq "ref" rfl, hroot]
  split
  · exact .intro hh context
  · exact .intro (hh.replaceAttr _ _ _) _

theorem follows_ref (hh : Follows N h h') (context : Context) :
    EndFollowsWith N (transformRef (h, context)) (transformRef (h', context)) := by
  have hbound : ∀ key ∈ [":ref", "v-bind:ref"], (boundName? key).isSome := by decide
  have hfixed := follows_fixedRef hh context
  unfold transformRef
  generalize transformFixedRef h context = site at hfixed ⊢
  generalize transformFixedRef h' context = site' at hfixed ⊢
  obtain @⟨a, c, hac, context⟩ := hfixed
  have hrefs : EndFollows N (Edit.each transformBoundRef [":ref", "v-bind:ref"] a)
      (Edit.each transformBoundRef [":ref", "v-bind:ref"] c) := by
    refine .each (fun key hkey x y hxy => ?_) hac
    have hread := hbound key hkey
    exact follows_boundRef hxy hread
  exact hrefs.map (fun _ _ hxy => .intro hxy context) fun _ _ _ => trivial

theorem follows_binding {key : String} (hkey : (boundName? key).isSome) (hh : Follows N h h')
    (context : Context) :
    EndFollowsWith N (transformBinding key (h, context)) (transformBinding key (h', context)) := by
  unfold transformBinding
  dsimp only
  rw [hh.attr?_eq key (by simp [readsValue, hkey])]
  split
  · exact .done (.intro (hh.removeAttr _) _)
  · refine .withCompiled trivial fun compiled => ?_
    split
    · split
      · exact .done (.intro (hh.replaceAttr _ _ _) _)
      · exact .failed _ trivial
    · exact .done (.intro (hh.replaceAttr _ _ _) _)

theorem follows_bindings (hh : Follows N h h') (context : Context) :
    EndFollowsWith N (transformBindings (h, context)) (transformBindings (h', context)) := by
  have hspread : EndFollowsWith N ((transformSpread h).map (·, context))
      ((transformSpread h').map (·, context)) :=
    (follows_spread hh).map (fun _ _ hac => .intro hac context) fun _ _ _ => trivial
  refine hspread.andThen fun site site' hsite => ?_
  obtain @⟨a, c, hac, context⟩ := hsite
  have hkeys : c.attrs.keys = a.attrs.keys := by
    obtain ⟨⟨hattrs⟩, -⟩ := hac
    exact hattrs.keys
  dsimp only
  rw [hkeys]
  refine .each (fun key hkey site site' hsite => ?_) (.intro hac context)
  obtain ⟨hac, context⟩ := hsite
  exact follows_binding (List.mem_filter.1 hkey).2 hac context

end Heads

/-! ## Rules on elements -/

inductive FollowsIn (N : String → Prop) : Element → Element → Prop
  | intro {h h' : Head} (hh : Follows N h h') (children : List Node) (branches : List Branch) :
    FollowsIn N ⟨h, children, branches⟩ ⟨h', children, branches⟩

abbrev EndFollowsIn (N : String → Prop) : Edit Element → Edit Element → Prop :=
  Edit.Related (FollowsIn N) fun _ _ => True

inductive FollowsAt (N : String → Prop) : Element × Context → Element × Context → Prop
  | intro {e e' : Element} (he : FollowsIn N e e') (context : Context) :
    FollowsAt N (e, context) (e', context)

abbrev EndFollowsAt (N : String → Prop) :
    Edit (Element × Context) → Edit (Element × Context) → Prop :=
  Edit.Related (FollowsAt N) fun _ _ => True

section Elements

variable {N : String → Prop} {h h' : Head} {e e' : Element}

theorem Follows.contentSource?_eq (hh : Follows N h h') (name : String) :
    contentSource? h' name = contentSource? h name := by
  have hvalue := hh.same (directiveValue? · name) fun _ _ => rfl
  rw [contentSource?, contentSource?, hh.hasAttr_eq, hvalue]

theorem follows_html (he : FollowsIn N e e') :
    EndFollowsIn N (transformHtml e) (transformHtml e') := by
  obtain ⟨hh, children, branches⟩ := he
  unfold transformHtml
  dsimp only
  rw [hh.contentSource?_eq]
  split
  · exact .done (.intro hh children branches)
  · exact .withCompiled trivial fun compiled => .done (.intro (hh.replaceAttr _ _ _) _ _)

theorem follows_text (he : FollowsIn N e e') :
    EndFollowsIn N (transformText e) (transformText e') := by
  obtain ⟨hh, children, branches⟩ := he
  unfold transformText
  dsimp only
  rw [hh.contentSource?_eq]
  split
  · exact .done (.intro hh children branches)
  · exact .withCompiled trivial fun compiled => .done (.intro (hh.removeAttr _) _ _)

theorem follows_content (he : FollowsIn N e e') :
    EndFollowsIn N (transformContent e) (transformContent e') := by
  obtain ⟨hh, children, branches⟩ := he
  have hdangerous := follows_renameHtml hh "dangerous-html" id rfl
  have hsafe := follows_renameHtml hdangerous "safe-html" (fun value => "_sf(" ++ value ++ ")") rfl
  exact (follows_html (.intro hsafe children branches)).andThen fun _ _ => follows_text

def Rule.Keeps (N : String → Prop) (rule : Rule) : Prop :=
  ∀ e e' context, FollowsIn N e e' →
    EndFollowsAt N (rule.after e context) (rule.after e' context)

theorem Rule.keeps_ofHead {name : String} {f : Head → Edit Head}
    (hf : ∀ h h', Follows N h h' → EndFollows N (f h) (f h')) : (Rule.ofHead name f).Keeps N := by
  rintro _ _ context ⟨hh, children, branches⟩
  refine (hf _ _ hh).map (fun _ _ hac => ?_) fun _ _ _ => trivial
  exact .intro (.intro hac children branches) context

theorem Rule.keeps_ofHeadAndContext {name : String} {f : Head × Context → Edit (Head × Context)}
    (hf : ∀ h h' context, Follows N h h' →
      EndFollowsWith N (f (h, context)) (f (h', context))) :
    (Rule.ofHeadAndContext name f).Keeps N := by
  rintro _ _ context ⟨hh, children, branches⟩
  refine (hf _ _ context hh).map ?_ fun _ _ _ => trivial
  rintro _ _ ⟨hac, context⟩
  exact .intro (.intro hac children branches) context

theorem Rule.keeps_ofElement {name : String} {f : Element → Edit Element}
    (hf : ∀ e e', FollowsIn N e e' → EndFollowsIn N (f e) (f e')) :
    (Rule.ofElement name f).Keeps N := by
  intro e e' context he
  exact (hf e e' he).map (fun _ _ hac => .intro hac context) fun _ _ _ => trivial

def readingRules : List Rule :=
  [ifRule, forRule, eventRule, modelRule, htmlRule, refRule, classRule, styleRule, bindRule]

theorem readingRules_keep : ∀ rule ∈ readingRules, rule.Keeps N := by
  simp only [readingRules, List.forall_mem_cons, List.not_mem_nil, false_imp_iff, implies_true,
    and_true]
  refine ⟨?_, ?_, ?_, ?_, ?_, ?_, ?_, ?_, ?_⟩
  · exact Rule.keeps_ofHead fun _ _ => follows_conditional
  · exact Rule.keeps_ofHead fun _ _ => follows_loop
  · exact Rule.keeps_ofHead fun _ _ => follows_listeners
  · exact Rule.keeps_ofHead fun _ _ => follows_model
  · exact Rule.keeps_ofElement fun _ _ => follows_content
  · exact Rule.keeps_ofHeadAndContext fun _ _ context hh => follows_ref hh context
  · exact Rule.keeps_ofHead fun _ _ => follows_class
  · exact Rule.keeps_ofHead fun _ _ => follows_style
  · exact Rule.keeps_ofHeadAndContext fun _ _ context hh => follows_bindings hh context

theorem follows_readingRules (he : FollowsIn N e e') (context : Context) :
    EndFollowsAt N (runAfter readingRules e context) (runAfter readingRules e' context) := by
  refine .each (fun rule hrule site site' hsite => ?_) (.intro he context)
  obtain ⟨he, context⟩ := hsite
  exact readingRules_keep rule hrule _ _ context he

/-! ## Special tags -/

/-- Elements that are the same but for empty attributes, which are filled at some names with `N`.
A transition hands the attributes to its first element, and a choice between two tags copies
them. -/
inductive FilledElement (N : String → Prop) : Element → Element → Prop
  | own {h h' : Head} (hh : FilledHead N h h') (children : List Node) (branches : List Branch) :
    FilledElement N ⟨h, children, branches⟩ ⟨h', children, branches⟩
  | handed {m m' : Entries String} (hm : Filled N m m') (h : Head) (children : List Node)
      (branches : List Branch) :
    FilledElement N ⟨h, markFirst (transitionCode m) children, branches⟩
      ⟨h, markFirst (transitionCode m') children, branches⟩
  | copied {h h' other other' : Head} (hh : FilledHead N h h') (hother : FilledHead N other other')
      (children : List Node) (test : String) :
    FilledElement N
      ⟨h, children, [⟨some test, .owner⟩, ⟨none, .element ⟨other, children, []⟩⟩]⟩
      ⟨h', children, [⟨some test, .owner⟩, ⟨none, .element ⟨other', children, []⟩⟩]⟩

abbrev EndFilled (N : String → Prop) : Edit Element → Edit Element → Prop :=
  Edit.Related (FilledElement N) fun _ _ => True

theorem filled_splitByTest (hh : FilledHead N h h') (children : List Node) (branches : List Branch)
    (test consequent alternate : String) :
    FilledElement N (splitByTest ⟨h, children, branches⟩ test consequent alternate)
      (splitByTest ⟨h', children, branches⟩ test consequent alternate) :=
  .copied ((hh.retag consequent).setAttr "s-if" test) ((hh.setAttr "s-else" "").retag alternate)
    children test

theorem filled_resolveTag (hh : FilledHead N h h') (children : List Node) (branches : List Branch)
    (code : String) :
    EndFilled N (resolveTag code ⟨h, children, branches⟩)
      (resolveTag code ⟨h', children, branches⟩) := by
  have hconditional : h'.isConditional = h.isConditional := by
    obtain ⟨_⟩ := hh
    rfl
  unfold resolveTag
  split
  · exact .failed _ trivial
  · dsimp only
    rw [hconditional]
    split
    · exact .failed _ trivial
    · split
      · exact .done (.own (hh.retag _) children branches)
      · split
        · exact .done (filled_splitByTest hh children branches _ _ _)
        · exact .failed _ trivial
      · exact .failed _ trivial

theorem filled_component (hh : Follows N h h') (children : List Node) (branches : List Branch) :
    EndFilled N (transformComponent ⟨h, children, branches⟩)
      (transformComponent ⟨h', children, branches⟩) := by
  have htag := hh.same (·.tag) fun _ _ => rfl
  unfold transformComponent
  dsimp only
  rw [htag]
  split
  · rename_i hcomponent
    rw [hh.attr?_eq "is" (by simp [readsValue, hcomponent])]
    split
    · exact .done (.own hh.filled children branches)
    · split
      · exact .done (.own ((hh.filled.removeAttr "is").retag _) children branches)
      · exact filled_resolveTag (hh.filled.removeAttr "is") children branches _
  · exact .done (.own hh.filled children branches)

theorem filled_specialTags (hh : Follows N h h') (children : List Node)
    (branches : List Branch) :
    EndFilled N (transformComponent (transformTransition ⟨h, children, branches⟩))
      (transformComponent (transformTransition ⟨h', children, branches⟩)) := by
  have htag := hh.same (·.tag) fun _ _ => rfl
  by_cases htransition : h.tag = "transition"
  · obtain ⟨⟨hattrs⟩, -⟩ := hh
    rw [transformTransition, transformTransition, if_pos htransition, if_pos htransition]
    exact .done (.handed hattrs _ children branches)
  · rw [transformTransition, transformTransition, if_neg htransition,
      if_neg (fun h' => htransition (htag.symm.trans h'))]
    exact filled_component hh children branches

theorem Follows.restrict {P : String → Prop} (hh : Follows N h h')
    (hnames : ∀ name, h'.hasAttr name → P name) :
    Follows (fun name => N name ∧ P name) h h' := by
  obtain ⟨⟨hattrs⟩, hunread⟩ := hh
  exact ⟨.intro (hattrs.restrict hnames), fun name hname => hunread name hname.1⟩

end Elements

/-! ## All rules -/

def unfilledRules : List Rule := builtinRules.filter (·.name != booleanRule.name)

def specialTagRules : List Rule := [transitionRule, dynamicComponentRule]

theorem runAfter_specialTagRules (e : Element) (context : Context) :
    runAfter specialTagRules e context =
      (transformComponent (transformTransition e)).map (·, context) := by
  change ((transformComponent (transformTransition e)).map (·, context)).andThen .done = _
  cases transformComponent (transformTransition e) <;> rfl

theorem runAfter_unfilledRules (e : Element) (context : Context) :
    runAfter unfilledRules e context =
      (runAfter readingRules e context).andThen fun site =>
        runAfter specialTagRules site.1 site.2 := by
  have hsplit : unfilledRules = templateRule :: readingRules ++ specialTagRules := rfl
  rw [hsplit]
  exact Edit.each_append _ (templateRule :: readingRules) specialTagRules (e, context)

theorem runAfter_builtinRules (e : Element) (context : Context) :
    runAfter builtinRules e context =
      (runAfter headRules e context).andThen fun site => runAfter specialTagRules site.1 site.2 :=
  Edit.each_append _ headRules specialTagRules (e, context)

/-- An attribute that is empty and is filled. On an element as it is read, it is no directive of
the source that a rule takes away. -/
def LeftEmpty (g : Head) (name : String) : Prop :=
  IsFilled g name ∧
    (g.attrs = entriesOf g.declared → isSourceKey name → LeftOver g.declared name)

theorem leftOver_of_headRules {g : Head} {e : Element} {children : List Node}
    {branches : List Branch} {context context' : Context}
    (h : runAfter headRules ⟨g.extract.1, children, branches⟩ context = .done (e, context'))
    {name : String} (hname : e.head.hasAttr name) (hg : g.attrs = entriesOf g.declared)
    (hkey : isSourceKey name) : LeftOver g.declared name := by
  obtain ⟨opening, x, closing, hopening, hcontent, hclosing, rfl, -⟩ := headRules_steps h
  rw [Head.hasAttr, Entries.has_eq_isSome, Option.isSome_iff_exists] at hname
  obtain ⟨value, hvalue⟩ := hname
  exact leftOver_of_attr hg hopening hcontent hclosing hkey hvalue

/-- Where no rule reads the value of an attribute that is filled, the rules are done with an element
if they are without the filling. They collect the same, and the elements differ only in attributes
that were empty. -/
theorem runAfter_filled {g : Head} {children : List Node} {branches : List Branch}
    {context context' : Context} {e : Element}
    (hunread : ∀ name, IsFilled g name → readsValue g.extract.1 name = false)
    (h : runAfter unfilledRules ⟨g.extract.1, children, branches⟩ context = .done (e, context')) :
    ∃ e', runAfter builtinRules ⟨g.extract.1, children, branches⟩ context = .done (e', context') ∧
      FilledElement (LeftEmpty g) e e' := by
  have hfollows : Follows (IsFilled g) g.extract.1 (fillEmpty g.extract.1) :=
    ⟨filledHead_fillEmpty g.extract.1, hunread⟩
  rw [runAfter_unfilledRules] at h
  obtain ⟨⟨x, inner⟩, hreading, hspecial⟩ := Edit.andThen_eq_done.1 h
  have hend := follows_readingRules (.intro hfollows children branches) context
  rw [hreading] at hend
  generalize hfilled : runAfter readingRules ⟨fillEmpty g.extract.1, children, branches⟩ context =
    result at hend
  obtain ⟨@⟨_, x', hx, _⟩⟩ := hend
  obtain @⟨head, head', hh, children', branches'⟩ := hx
  have hhead : runAfter headRules ⟨g.extract.1, children, branches⟩ context =
      .done (⟨head', children', branches'⟩, inner) := hfilled
  have hleft := hh.restrict fun name hname => leftOver_of_headRules hhead hname
  have htags := filled_specialTags hleft children' branches'
  rw [runAfter_specialTagRules] at hspecial
  obtain ⟨_, hcomponent, heq⟩ := Edit.map_eq_done.1 hspecial
  cases heq
  rw [hcomponent] at htags
  generalize hdone : transformComponent (transformTransition ⟨head', children', branches'⟩) =
    last at htags
  obtain ⟨hsame⟩ := htags
  refine ⟨_, ?_, hsame⟩
  rw [runAfter_builtinRules, hhead, Edit.andThen, runAfter_specialTagRules, hdone]
  rfl

def firstHead (source : String) : Head :=
  ((firstElement? (read {} source).value).map (·.head)).getD default

def sampleEmpty : Head :=
  firstHead "<p v-else title class=\"a\" :class=\"x\" style=\"\" :style=\"y\" @click></p>"

theorem sampleEmpty_filled : ∃ e e' context',
    runAfter unfilledRules ⟨sampleEmpty.extract.1, [], []⟩ {} = .done (e, context') ∧
    runAfter builtinRules ⟨sampleEmpty.extract.1, [], []⟩ {} = .done (e', context') ∧
    FilledElement (LeftEmpty sampleEmpty) e e' ∧
    e.head.attrs = [("s-else", ""), ("title", ""),
      ("class", interpolate "_mc('a', x)"), ("style", interpolate "_ms(\x7b\x7d, y)"),
      ("on-click", "_noop")] := by
  generalize hresult : runAfter unfilledRules ⟨sampleEmpty.extract.1, [], []⟩ {} = result
  have heval : (result.error?.isNone && result.value.1.head.attrs == [("s-else", ""), ("title", ""),
      ("class", interpolate "_mc('a', x)"), ("style", interpolate "_ms(\x7b\x7d, y)"),
      ("on-click", "_noop")]) = true := by
    rw [← hresult]
    decide +kernel
  rw [Bool.and_eq_true, beq_iff_eq] at heval
  have hdone : result = .done (result.value.1, result.value.2) := Edit.eq_done_of_error? heval.1
  have hunread : ∀ entry ∈ sampleEmpty.attrs,
      entry.2 = "" → readsValue sampleEmpty.extract.1 entry.1 = false := by
    decide +kernel
  obtain ⟨e', he', hsame⟩ :=
    runAfter_filled (fun name hname => hunread (name, "") hname.1 rfl) (hresult.trans hdone)
  exact ⟨_, e', _, hdone, he', hsame, heval.2⟩

def sampleEmptyClass : Head := firstHead "<p class=\"\" :class=\"x\"></p>"

/-- The fixed class is read after it was filled, so that the merged classes differ. -/
theorem filled_class_merged : ∃ e e' context',
    runAfter unfilledRules ⟨sampleEmptyClass.extract.1, [], []⟩ {} = .done (e, context') ∧
    runAfter builtinRules ⟨sampleEmptyClass.extract.1, [], []⟩ {} = .done (e', context') ∧
    e.head.attr? "class" = some (interpolate "_mc('', x)") ∧
    e'.head.attr? "class" = some (interpolate ("_mc('" ++ interpolate "true" ++ "', x)")) := by
  generalize hwithout : runAfter unfilledRules ⟨sampleEmptyClass.extract.1, [], []⟩ {} = left
  generalize hwith : runAfter builtinRules ⟨sampleEmptyClass.extract.1, [], []⟩ {} = right
  have hleft : (left.error?.isNone && left.value.2 == {} &&
      left.value.1.head.attr? "class" == some (interpolate "_mc('', x)")) = true := by
    rw [← hwithout]
    decide +kernel
  have hright : (right.error?.isNone && right.value.2 == {} && right.value.1.head.attr? "class" ==
      some (interpolate ("_mc('" ++ interpolate "true" ++ "', x)"))) = true := by
    rw [← hwith]
    decide +kernel
  simp only [Bool.and_eq_true, beq_iff_eq] at hleft hright
  obtain ⟨⟨hdone, hcontext⟩, hclass⟩ := hleft
  obtain ⟨⟨hdone', hcontext'⟩, hclass'⟩ := hright
  refine ⟨left.value.1, right.value.1, {}, ?_, ?_, hclass, hclass'⟩
  · rw [Edit.eq_done_of_error? hdone, ← hcontext]
    rfl
  · rw [Edit.eq_done_of_error? hdone', ← hcontext']
    rfl

end VueToSan.Transform
