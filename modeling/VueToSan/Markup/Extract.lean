import VueToSan.Markup.Chain
import VueToSan.Markup.Loop
import VueToSan.Markup.Problem
import VueToSan.Markup.Style

/-!
# Directive fields

The directive fields of an element are read off its attributes. A blank value counts as no value.
-/

namespace VueToSan.Markup

open VueToSan.Text

def Head.filled? (h : Head) (name : String) : Option String :=
  (h.attr? name).filter (!allBlank ·)

def Head.bound? (h : Head) (name : String) : Option String :=
  (h.filled? (":" ++ name)).orElse fun _ => h.filled? ("v-bind:" ++ name)

def structuralDirectives : List String := ["if", "else-if", "else", "for", "bind", "on"]

def Attr.directive? (a : Attr) : Option Directive :=
  match stripStart? "v-".toList a.name.toList with
  | none => none
  | some rest =>
    match splitOn '.' rest with
    | [] => none
    | full :: modifiers =>
      let (name, arg) := match breakAt? [':'] full with
        | some (name, _ :: arg) => (String.ofList name, some (String.ofList arg))
        | _ => (String.ofList full, none)
      if name.isEmpty || structuralDirectives.contains name then none
      else some ⟨name, a.name, a.value, arg, modifiers.map String.ofList⟩

/-- Fills the directive fields. A loop found before stays when there is none now. -/
def Head.extract (h : Head) : Head × List Problem :=
  let header := h.filled? "v-for"
  let found := header.bind Loop.ofText?
  let problems : List Problem := match header, found with
    | some text, none => [⟨.invalidLoop text, h.span⟩]
    | _, _ => []
  ({ h with
      loop := found.orElse fun _ => h.loop
      key := (h.bound? "key").orElse fun _ => h.filled? "key"
      ifTest := h.filled? "v-if"
      elseIfTest := h.filled? "v-else-if"
      hasElse := h.hasAttr "v-else"
      staticClass := h.attr? "class"
      classBinding := h.bound? "class"
      staticStyle := (h.attr? "style").map fun text => styleObject (styleEntries text)
      styleBinding := h.bound? "style"
      directives := h.declared.filterMap (·.directive?) },
   problems)

mutual

def Element.extract : Element → Element × List Problem
  | ⟨head, children, branches⟩ =>
    let (head, own) := head.extract
    let (children, below) := extractEach children
    let (children, chained) := chain children
    (⟨head, children, branches⟩, own ++ below ++ chained)

def extractEach : List Node → List Node × List Problem
  | [] => ([], [])
  | .element e :: rest =>
    let (e, own) := e.extract
    let (rest, more) := extractEach rest
    (.element e :: rest, own ++ more)
  | node :: rest =>
    let (rest, more) := extractEach rest
    (node :: rest, more)

end

def extractAll (nodes : List Node) : List Node × List Problem :=
  let (nodes, own) := extractEach nodes
  let (nodes, chained) := chain nodes
  (nodes, own ++ chained ++ checkSingleRoot nodes)

end VueToSan.Markup
