import VueToSan.Proofs.EntryLookup
import VueToSan.Proofs.RuleEffects
import VueToSan.Transform.Rules.Binding
import VueToSan.Transform.Rules.Control

/-!
# Where structural code is written

Tests, the list of a loop, handlers and values that flow back are expressions whose code is written
to an attribute between fixed texts: nothing around a test, modifiers before a handler, the names
and the key around a list, and braces around a value that flows back.
-/

namespace VueToSan.Transform

open VueToSan.Text VueToSan.Markup

/-! ## Sites -/

/-- Where an element holds a structural expression. -/
inductive Site where
  | test
  | branchTest
  | list
  | handler (a : Attr)
  | model
  | sync (key : String)

def listenerParts (a : Attr) : String × List String :=
  splitModifiers ((listenerName? a.name).getD [])

def bindingParts (key : String) : String × List String :=
  splitModifiers ((boundName? key).getD [])

/-- The clause for the key of a loop, which has none if it is no identifier. -/
def keyClause (h : Head) : String :=
  match h.key.map Expr.compile with
  | some (.ok key) => trackByClause key
  | _ => ""

namespace Site

def source? (h : Head) : Site → Option String
  | test => h.ifTest
  | branchTest => h.elseIfTest
  | list => h.loop.map (·.source)
  | handler a =>
    if (listenerName? a.name).isSome && !allBlank a.value then some a.value else none
  | model => (h.directive? "model").map (·.value)
  | sync key =>
    if !(bindingParts key).1.isEmpty && (bindingParts key).2.contains "sync" then h.attr? key
    else none

def attr (h : Head) : Site → String
  | test => "s-if"
  | branchTest => "s-else-if"
  | list => "s-for"
  | handler a => "on-" ++ (listenerParts a).1
  | model => modelAttr h
  | sync key =>
    if (bindingParts key).2.contains "camel" then camelize (bindingParts key).1
    else (bindingParts key).1

def front (h : Head) : Site → String
  | test => ""
  | branchTest => ""
  | list => (h.loop.map loopNames).getD "" ++ " in _l("
  | handler a => String.join ((listenerParts a).2.map (· ++ ":"))
  | model => "\x7b= "
  | sync _ => "\x7b= "

def back (h : Head) : Site → String
  | test => ""
  | branchTest => ""
  | list => ")" ++ keyClause h
  | handler _ => ""
  | model => " =\x7d"
  | sync _ => " =\x7d"

def value (site : Site) (h : Head) (code : String) : String := site.front h ++ code ++ site.back h

/-- The rule for the site is done with an element and leaves it with another head. -/
def Finishes (h h' : Head) : Site → Prop
  | test => transformConditional h = .done h'
  | branchTest => transformConditional h = .done h'
  | list => transformLoop h = .done h'
  | handler a => transformListener a h = .done h'
  | model => transformModel h = .done h'
  | sync key => ∃ context context', transformBinding key (h, context) = .done (h', context')

end Site

/-! ## What the rules write -/

theorem attr?_replaceAttr_of_ne {h : Head} {name old new value : String} (hold : name ≠ old)
    (hnew : name ≠ new) : (h.replaceAttr old new value).attr? name = h.attr? name :=
  Entries.get?_replace_of_ne hold hnew

variable {h h' : Head} {source : String} {compiled : Expr.Compiled}

theorem renameTest_attr {old new : String} (hcompile : Expr.compile source = .ok compiled)
    (hdone : renameTest (some source) old new h = .done h') :
    h'.attr? new = some compiled.text := by
  simp only [renameTest, Edit.withCode, Edit.withCompiled, hcompile, Edit.done.injEq] at hdone
  rw [← hdone]
  exact Entries.get?_replace_self

theorem renameTest_keeps {test : Option String} {old new : String}
    (hdone : renameTest test old new h = .done h') :
    h'.elseIfTest = h.elseIfTest ∧
      ∀ name, name ≠ old → name ≠ new → h'.attr? name = h.attr? name := by
  unfold renameTest at hdone
  split at hdone
  · cases hdone
    exact ⟨rfl, fun name _ _ => rfl⟩
  · obtain ⟨compiled, -, hdone⟩ := Edit.withCode_eq_done.1 hdone
    cases hdone
    exact ⟨rfl, fun name hold hnew => attr?_replaceAttr_of_ne hold hnew⟩

theorem transformConditional_done (hdone : transformConditional h = .done h') :
    ∃ h₁ h₂, renameTest h.ifTest "v-if" "s-if" h = .done h₁ ∧
      renameTest h₁.elseIfTest "v-else-if" "s-else-if" h₁ = .done h₂ ∧
      ∀ name, name ≠ "v-else" → name ≠ "s-else" → h'.attr? name = h₂.attr? name := by
  obtain ⟨h₁, hif, hdone⟩ := Edit.andThen_eq_done.1 hdone
  obtain ⟨h₂, helseIf, hdone⟩ := Edit.andThen_eq_done.1 hdone
  refine ⟨h₁, h₂, hif, helseIf, fun name hold hnew => ?_⟩
  cases hdone
  split
  · exact attr?_replaceAttr_of_ne hold hnew
  · rfl

theorem attr?_setLoop (h : Head) (value : String) :
    (setLoop h value).attr? "s-for" = some value := by
  have hfor : (h.replaceAttr "v-for" "s-for" value).attr? "s-for" = some value :=
    Entries.get?_replace_self
  simp only [setLoop, keyAttrs, List.foldl_cons, List.foldl_nil]
  simpa [Head.removeAttr, Head.attr?, Entries.get?_erase] using hfor

theorem Site.list_value {l : Loop} (hloop : h.loop = some l) (code : String) :
    Site.list.value h code = loopNames l ++ " in _l(" ++ code ++ ")" ++ keyClause h := by
  simp only [Site.value, Site.front, Site.back, hloop, Option.map_some, Option.getD_some,
    String.append_assoc]

theorem keyClause_some {key : Expr.Compiled} (hkey : h.key = some source)
    (hcompile : Expr.compile source = .ok key) : keyClause h = trackByClause key := by
  rw [keyClause, hkey, Option.map_some, hcompile]

theorem transformLoop_done {l : Loop} (hloop : h.loop = some l)
    (hcompile : Expr.compile l.source = .ok compiled)
    (hkey : ∀ source ∈ h.key, ∃ key, Expr.compile source = .ok key) :
    ∃ value, transformLoop h = .done (setLoop h value) := by
  simp only [transformLoop, hloop, Edit.withCode, Edit.withCompiled, hcompile]
  cases hsource : h.key with
  | none => exact ⟨_, rfl⟩
  | some source =>
    obtain ⟨key, hkey⟩ := hkey source hsource
    simp only [hkey]
    exact ⟨_, rfl⟩

theorem exists_compiled_list {l : Loop} (hloop : h.loop = some l)
    (hdone : transformLoop h = .done h') : ∃ list, Expr.compile l.source = .ok list := by
  rw [transformLoop, hloop] at hdone
  obtain ⟨list, hlist, -⟩ := Edit.withCode_eq_done.1 hdone
  exact ⟨list, hlist⟩

theorem transformLoop_attr {l : Loop} (hloop : h.loop = some l)
    (hcompile : Expr.compile l.source = .ok compiled) (hdone : transformLoop h = .done h') :
    h'.attr? "s-for" = some (Site.list.value h compiled.text) := by
  simp only [transformLoop, hloop, Edit.withCode, Edit.withCompiled, hcompile] at hdone
  rw [Site.list_value hloop]
  cases hkey : h.key with
  | none =>
    simp only [hkey, Edit.done.injEq] at hdone
    have hclause : keyClause h = "" := by
      rw [keyClause, hkey]
      rfl
    rw [← hdone, attr?_setLoop, hclause, String.append_empty]
  | some source =>
    cases hk : Expr.compile source with
    | error e => simp [hkey, hk] at hdone
    | ok key =>
      simp only [hkey, hk, Edit.done.injEq] at hdone
      rw [← hdone, attr?_setLoop, keyClause_some hkey hk]

theorem transformListener_attr {a : Attr} (hname : (listenerName? a.name).isSome)
    (hblank : allBlank a.value = false) (hcompile : Expr.compile a.value = .ok compiled)
    (hdone : transformListener a h = .done h') :
    h'.attr? ((Site.handler a).attr h) = some ((Site.handler a).value h compiled.text) := by
  obtain ⟨cs, hcs⟩ := Option.isSome_iff_exists.1 hname
  simp only [transformListener, hcs, hblank, Edit.withCode, Edit.withCompiled, hcompile,
    Bool.false_eq_true, if_false, Edit.done.injEq] at hdone
  have hparts : listenerParts a = splitModifiers cs := by
    rw [listenerParts, hcs, Option.getD_some]
  rw [← hdone, Site.attr, Site.value, Site.front, Site.back, hparts, String.append_empty]
  exact Entries.get?_replace_self

theorem transformModel_attr {d : Directive} (hmodel : h.directive? "model" = some d)
    (hcompile : Expr.compile d.value = .ok compiled) (hdone : transformModel h = .done h') :
    h'.attr? (modelAttr h) = some (Site.model.value h compiled.text) := by
  simp only [transformModel, hmodel, Edit.withCompiled, hcompile] at hdone
  split at hdone
  · cases hdone
    exact Entries.get?_replace_self
  · cases hdone

theorem transformBinding_attr {key : String} {context context' : Context}
    (hname : (bindingParts key).1.isEmpty = false)
    (hsync : (bindingParts key).2.contains "sync" = true) (hattr : h.attr? key = some source)
    (hcompile : Expr.compile source = .ok compiled)
    (hdone : transformBinding key (h, context) = .done (h', context')) :
    h'.attr? ((Site.sync key).attr h) = some ((Site.sync key).value h compiled.text) := by
  rw [bindingParts] at hname hsync
  simp only [transformBinding, hname, hsync, hattr, Edit.withCompiled, hcompile, Bool.false_eq_true,
    if_false, if_true, Option.getD_some] at hdone
  split at hdone
  · cases hdone
    exact Entries.get?_replace_self
  · cases hdone

theorem Site.attr_written {site : Site} (hsource : site.source? h = some source)
    (hcompile : Expr.compile source = .ok compiled) (hdone : site.Finishes h h') :
    h'.attr? (site.attr h) = some (site.value h compiled.text) := by
  have hbare : ∀ code : String, "" ++ code ++ "" = code := fun code => by
    rw [String.empty_append, String.append_empty]
  -- Each attribute is written by one step, and the later ones of the same rule leave it alone.
  cases site with
  | test =>
    have htest : h.ifTest = some source := hsource
    obtain ⟨h₁, h₂, hif, helseIf, helse⟩ := transformConditional_done hdone
    rw [htest] at hif
    rw [Site.attr, helse "s-if" (by decide) (by decide),
      (renameTest_keeps helseIf).2 "s-if" (by decide) (by decide), renameTest_attr hcompile hif]
    exact congrArg some (hbare _).symm
  | branchTest =>
    have htest : h.elseIfTest = some source := hsource
    obtain ⟨h₁, h₂, hif, helseIf, helse⟩ := transformConditional_done hdone
    rw [(renameTest_keeps hif).1, htest] at helseIf
    rw [Site.attr, helse "s-else-if" (by decide) (by decide), renameTest_attr hcompile helseIf]
    exact congrArg some (hbare _).symm
  | list =>
    obtain ⟨l, hloop, rfl⟩ := Option.map_eq_some_iff.1 hsource
    exact transformLoop_attr hloop hcompile hdone
  | handler a =>
    obtain ⟨hlistener, hvalue⟩ := Option.ite_none_right_eq_some.1 hsource
    obtain rfl := Option.some.inj hvalue
    rw [Bool.and_eq_true, Bool.not_eq_true'] at hlistener
    exact transformListener_attr hlistener.1 hlistener.2 hcompile hdone
  | model =>
    obtain ⟨d, hmodel, rfl⟩ := Option.map_eq_some_iff.1 hsource
    exact transformModel_attr hmodel hcompile hdone
  | sync key =>
    obtain ⟨hsync, hattr⟩ := Option.ite_none_right_eq_some.1 hsource
    rw [Bool.and_eq_true, Bool.not_eq_true'] at hsync
    obtain ⟨context, context', hdone⟩ := hdone
    exact transformBinding_attr hsync.1 hsync.2 hattr hcompile hdone

end VueToSan.Transform
