import VueToSan.Text.Blank
import VueToSan.Text.Camel
import VueToSan.Text.Search
import VueToSan.Transform.Rule

/-!
# Special tags

Template wrappers become fragments. So do transitions, which hand their attributes to their first
element. The attribute `is` of a component names its tag, and a choice between two tags becomes a
conditional of two elements.
-/

namespace VueToSan.Transform

open VueToSan.Markup VueToSan.Text

/-! ## Template wrappers -/

def fragmentHead (h : Head) : Head :=
  if h.tag = "template" then { h with tag := fragmentTag } else h

def templateRule : Rule := .ofBefore "template" fragmentHead

/-! ## Transitions -/

def transitionField (name value : String) : String :=
  let code := match interpolated? value with
    | some code => String.ofList (trim code)
    | none => Expr.quote value
  camelize name ++ ":" ++ code

def transitionCode (attrs : Entries String) : String :=
  let fields := attrs.map fun (name, value) => transitionField name value
  "_t(\x7b" ++ joinWith "," fields ++ "\x7d)"

def setTransition (code : String) (e : Element) : Element :=
  e.mapHead (·.setAttr "s-transition" code)

def markTransition (code : String) (e : Element) : Element :=
  { setTransition code e with
    branches := e.branches.map fun b => match b.block with
      | .owner => b
      | .element branch => { b with block := .element (setTransition code branch) } }

def markFirst (code : String) : List Node → List Node
  | [] => []
  | .element e :: rest => .element (markTransition code e) :: rest
  | node :: rest => node :: markFirst code rest

def transformTransition (e : Element) : Element :=
  if e.head.tag = "transition" then
    ⟨{ e.head with tag := fragmentTag, attrs := [] },
     markFirst (transitionCode e.head.attrs) e.children, e.branches⟩
  else e

def transitionRule : Rule := .ofElement "transition" fun e => .done (transformTransition e)

/-! ## Dynamic components -/

def literalTag? : Expr.Node → Option String
  | .literal _ (.string tag) => some tag
  | _ => none

def retag (e : Element) (tag : String) : Element := e.mapHead fun h => { h with tag := tag }

def splitByTest (e : Element) (test consequent alternate : String) : Element :=
  let other := e.derive alternate (e.head.attrs.set "s-else" "")
  ⟨{ e.head with tag := consequent }.setAttr "s-if" test, e.children,
   [⟨some test, .owner⟩, ⟨none, .element other⟩]⟩

/-- Resolves the code that names the tag; `e` is the element without its attribute `is`. -/
def resolveTag (code : String) (e : Element) : Edit Element :=
  match Expr.parse code with
  | .error error => .failed (.expression (.unreadable code error)) e
  | .ok parsed =>
    if e.head.isConditional then .failed .dynamicConditional e
    else match parsed.expression with
      | .literal _ (.string tag) => .done (retag e tag)
      | .conditional _ test consequent alternate =>
        match literalTag? consequent, literalTag? alternate with
        | some c, some a => .done (splitByTest e (test.span.slice code) c a)
        | _, _ => .failed (.dynamicBranches code) e
      | _ => .failed (.dynamicForm code) e

def transformComponent (e : Element) : Edit Element :=
  if e.head.tag = "component" then
    match e.head.attr? "is" with
    | none => .done e
    | some value =>
      let bare := e.mapHead (·.removeAttr "is")
      match interpolated? value with
      | none => .done (retag bare value)
      | some inner => resolveTag (String.ofList (trim inner)) bare
  else .done e

def dynamicComponentRule : Rule := .ofElement "dynamic-component" transformComponent

end VueToSan.Transform
