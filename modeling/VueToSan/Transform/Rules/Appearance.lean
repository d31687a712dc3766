import VueToSan.Text.Blank
import VueToSan.Text.Camel
import VueToSan.Text.Search
import VueToSan.Transform.Rule

/-!
# Classes and styles

A bound class and the fixed one are merged by the helper `_mc`. A bound style, the fixed one and the
condition for showing the element are merged by the helper `_ms`.
-/

namespace VueToSan.Transform

open VueToSan.Markup VueToSan.Text

/-! ## Classes -/

def classParts : List String := [":class", "v-bind:class"]

def transformClass (h : Head) : Edit Head :=
  match h.classBinding with
  | none => .done h
  | some source => .withCode source h fun code =>
    let fixed := Expr.quote ((h.attr? "class").getD "")
    .done (mergeAttr h "class" classParts (interpolate ("_mc(" ++ fixed ++ ", " ++ code ++ ")")))

def classRule : Rule := .ofHead "class" transformClass

/-! ## Styles -/

def styleParts : List String := [":style", "v-bind:style", "v-show"]

def mergeStyle (h : Head) (parts : List String) : Head :=
  let fixed := h.staticStyle.getD "''"
  mergeAttr h "style" styleParts (interpolate ("_ms(" ++ joinWith ", " (fixed :: parts) ++ ")"))

def transformStyle (h : Head) : Edit Head :=
  match h.styleBinding, (h.attr? "v-show").filter (!allBlank ·) with
  | none, none => .done h
  | some bound, none => .withCode bound h fun bound => .done (mergeStyle h [bound])
  | none, some shown => .withCode shown h fun shown => .done (mergeStyle h ["\x7b\x7d", shown])
  | some bound, some shown =>
    .withCode bound h fun bound =>
      .withCode shown h fun shown => .done (mergeStyle h [bound, shown])

def styleRule : Rule := .ofHead "style" transformStyle

/-! ## Class names of style modules -/

def mapClassName (classes : Entries String) (name : String) : String :=
  (classes.get? (camelize name)).getD name

/-- Maps the names of a class attribute, one double quote at each end taken off. -/
def mapClasses (classes : Entries String) (value : String) : String :=
  let cs := value.toList
  let cs := if cs.head? = some '\x22' then cs.tail else cs
  let cs := if cs.getLast? = some '\x22' then cs.dropLast else cs
  joinWith " " ((splitOn ' ' cs).map fun name => mapClassName classes (String.ofList name))

def mapFixedClass (classes : Entries String) (h : Head) : Head :=
  match (h.attr? "class").filter (!·.isEmpty) with
  | none => h
  | some value =>
    let mapped := mapClasses classes value
    let declared := h.declared.map fun (a : Attr) =>
      if a.name = "class" then { a with value := mapped } else a
    { h with declared }.setAttr "class" mapped

def cssModulesRule (classes : Entries String) : Rule :=
  .ofBefore "cssmodules" (mapFixedClass classes)

end VueToSan.Transform
