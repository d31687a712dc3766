import VueToSan.Text.Blank
import VueToSan.Text.Camel
import VueToSan.Text.Search
import VueToSan.Transform.Rule

/-!
# Bindings

Listeners `@name.mod` and `v-on:name.mod` become `on-name`, with the modifiers in front of the
handler. A model binds the value of an element both ways, for checkboxes and radio buttons whether
they are checked. Every attribute that is bound then becomes an interpolation, or a two-way binding
if it is to be synchronised; rules that claim a bound attribute of their own run before that.
-/

namespace VueToSan.Transform

open VueToSan.Markup VueToSan.Text

/-! ## Listeners -/

def listenerName? (name : String) : Option (List Char) :=
  (stripStart? ['@'] name.toList).orElse fun _ => stripStart? "v-on:".toList name.toList

def splitModifiers (cs : List Char) : String × List String :=
  match splitOn '.' cs with
  | [] => ("", [])
  | name :: modifiers => (String.ofList name, modifiers.map String.ofList)

def transformListener (a : Attr) (h : Head) : Edit Head :=
  match listenerName? a.name with
  | none => .done h
  | some cs =>
    let (event, modifiers) := splitModifiers cs
    let write (handler : String) : Edit Head :=
      .done (h.replaceAttr a.name ("on-" ++ event)
        (String.join (modifiers.map (· ++ ":")) ++ handler))
    if allBlank a.value then write "_noop" else .withCode a.value h write

def transformListeners (h : Head) : Edit Head :=
  Edit.each transformListener (h.declared.filter fun a => (listenerName? a.name).isSome) h

def eventRule : Rule := .ofHead "event" transformListeners

/-! ## Models -/

def modelAttr (h : Head) : String :=
  if h.tag == "input" && (h.attr? "type" == some "checkbox" || h.attr? "type" == some "radio") then
    "checked"
  else "value"

def transformModel (h : Head) : Edit Head :=
  match h.directive? "model" with
  | none => .done h
  | some d => .withCompiled d.value h fun compiled =>
    if compiled.isAssignable then
      .done (h.replaceAttr d.rawName (modelAttr h) (bindBack compiled.text))
    else .failed (.modelTarget d.value) h

def modelRule : Rule := .ofHead "model" transformModel

/-! ## Bound attributes -/

def boundName? (name : String) : Option (List Char) :=
  (stripStart? [':'] name.toList).orElse fun _ => stripStart? "v-bind:".toList name.toList

def transformSpread (h : Head) : Edit Head :=
  match h.attr? "v-bind" with
  | none => .done h
  | some source => .withCode source h fun code =>
    .done (h.replaceAttr "v-bind" "s-bind" (interpolate code))

def transformBinding (key : String) (site : Head × Context) : Edit (Head × Context) :=
  let (h, context) := site
  let (name, modifiers) := splitModifiers ((boundName? key).getD [])
  if name.isEmpty then
    .done (h.removeAttr key,
      context.report ("invalid binding \"" ++ key ++ "\" has no attribute name."))
  else
    let source := (h.attr? key).getD ""
    .withCompiled source site fun compiled =>
      let name := if modifiers.contains "camel" then camelize name else name
      if modifiers.contains "sync" then
        if compiled.isAssignable then
          .done (h.replaceAttr key name (bindBack compiled.text), context)
        else .failed (.syncTarget (trimmed source) key) site
      else .done (h.replaceAttr key name (interpolate compiled.text), context)

def transformBindings (site : Head × Context) : Edit (Head × Context) :=
  ((transformSpread site.1).map (·, site.2)).andThen fun site =>
    Edit.each transformBinding (site.1.attrs.keys.filter fun key => (boundName? key).isSome) site

def bindRule : Rule := .ofHeadAndContext "bind" transformBindings

end VueToSan.Transform
