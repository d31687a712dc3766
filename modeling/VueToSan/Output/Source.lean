import VueToSan.Json.Value
import VueToSan.Markup.Element

/-!
# Element trees as JSON

Every field of an element is written, whether it holds something or not.
-/

namespace VueToSan

open VueToSan.Json

def Span.json (s : Span) : Value := .object [⟨"start", .count s.start⟩, ⟨"end", .count s.stop⟩]

namespace Markup

def Attr.json (a : Attr) : Value :=
  .object [⟨"name", .string a.name⟩, ⟨"value", .string a.value⟩, ⟨"span", a.span.json⟩]

def Loop.json (l : Loop) : Value :=
  .object [⟨"source", .string l.source⟩, ⟨"alias", .string l.item⟩,
    ⟨"iterator1", .optional l.iterator1⟩, ⟨"iterator2", .optional l.iterator2⟩]

def Directive.json (d : Directive) : Value :=
  .object [⟨"name", .string d.name⟩, ⟨"rawName", .string d.rawName⟩, ⟨"value", .string d.value⟩,
    ⟨"arg", .optional d.arg⟩, ⟨"modifiers", .strings d.modifiers⟩]

def Head.members (h : Head) (children branches : List Value) : List Member :=
  [⟨"tag", .string h.tag⟩,
    ⟨"attrsMap", .object (h.attrs.map fun (name, value) => ⟨name, .string value⟩)⟩,
    ⟨"attrsList", .array (h.declared.map Attr.json)⟩,
    ⟨"children", .array children⟩,
    ⟨"parentTag", .optional h.parent⟩,
    ⟨"selfClosing", .bool h.selfClosing⟩,
    ⟨"span", h.span.json⟩,
    ⟨"ifExp", .optional h.ifTest⟩,
    ⟨"elseIfExp", .optional h.elseIfTest⟩,
    ⟨"hasElse", .bool h.hasElse⟩,
    ⟨"forInfo", .orNull (h.loop.map Loop.json)⟩,
    ⟨"key", .optional h.key⟩,
    ⟨"staticClass", .optional h.staticClass⟩,
    ⟨"classBinding", .optional h.classBinding⟩,
    ⟨"staticStyle", .optional h.staticStyle⟩,
    ⟨"styleBinding", .optional h.styleBinding⟩,
    ⟨"directives", .array (h.directives.map Directive.json)⟩,
    ⟨"ifConditions", .array branches⟩]

def leafJson (type content : String) (span : Span) : Value :=
  .object [⟨"type", .string type⟩, ⟨"content", .string content⟩, ⟨"span", span.json⟩]

mutual

def Element.members : Element → List Member
  | ⟨head, children, branches⟩ => head.members (nodesJson children) (branchesJson branches)

def Node.json : Node → Value
  | .element e => .object (⟨"type", .string "element"⟩ :: e.members)
  | .text content span => leafJson "text" content span
  | .comment content span => leafJson "comment" content span

def nodesJson : List Node → List Value
  | [] => []
  | node :: rest => node.json :: nodesJson rest

def Block.json : Block → Value
  | .owner => .string "Owner"
  | .element e => .tagged "Element" (.object e.members)

def Branch.json : Branch → Value
  | ⟨test, block⟩ => .object [⟨"exp", .optional test⟩, ⟨"block", block.json⟩]

def branchesJson : List Branch → List Value
  | [] => []
  | branch :: rest => branch.json :: branchesJson rest

end

end Markup

end VueToSan
