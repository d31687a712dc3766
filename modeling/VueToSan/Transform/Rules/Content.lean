import VueToSan.Text.Blank
import VueToSan.Transform.Rule

/-!
# Content directives

`v-dangerous-html` and `v-safe-html` are forms of `v-html`, the latter with a call of the sanitiser
`_sf`. `v-html` becomes `s-html`, and `v-text` becomes a text; both take the place of the children.
-/

namespace VueToSan.Transform

open VueToSan.Markup VueToSan.Text

def renameDirective (name value : String) : List Directive → List Directive
  | [] => []
  | d :: ds =>
    if d.name = name then { d with name := "html", value := value } :: ds
    else d :: renameDirective name value ds

def renameHtml (form : String) (wrap : String → String) (h : Head) : Head :=
  match h.attr? ("v-" ++ form) with
  | none => h
  | some value =>
    { h with directives := renameDirective form (wrap value) h.directives }.replaceAttr
      ("v-" ++ form) "v-html" (wrap value)

def directiveValue? (h : Head) (name : String) : Option String :=
  ((h.directive? name).map (·.value)).filter (!allBlank ·)

def contentSource? (h : Head) (name : String) : Option String :=
  if h.hasAttr ("v-" ++ name) then directiveValue? h name else none

def transformHtml (e : Element) : Edit Element :=
  match contentSource? e.head "html" with
  | none => .done e
  | some source => .withCode source e fun code =>
    .done ⟨e.head.replaceAttr "v-html" "s-html" (interpolate code), [], e.branches⟩

def transformText (e : Element) : Edit Element :=
  match contentSource? e.head "text" with
  | none => .done e
  | some source => .withCode source e fun code =>
    .done ⟨e.head.removeAttr "v-text", [.ofText (interpolate code)], e.branches⟩

def transformContent (e : Element) : Edit Element :=
  let renamed := renameHtml "safe-html" (fun value => "_sf(" ++ value ++ ")")
    (renameHtml "dangerous-html" id e.head)
  (transformHtml { e with head := renamed }).andThen transformText

def htmlRule : Rule := .ofElement "html" transformContent

end VueToSan.Transform
