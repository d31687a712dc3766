import VueToSan.Output.Expression
import VueToSan.San.Tree

/-!
# San trees as JSON

What an element or a value lacks is left out.
-/

namespace VueToSan.San

open VueToSan.Json

def typed (type : String) (members : List Member) : List Member := ⟨"type", .string type⟩ :: members

def Segment.json : Segment → Json.Value
  | .literal s => .object (typed "literal" [⟨"value", .string s⟩])
  | .interpolation e => .object (typed "interp" [⟨"expr", e.json⟩])

def ValueKind.members : ValueKind → List Member
  | .text segments => typed "text" [⟨"segs", .array (segments.map Segment.json)⟩]
  | .expr e => typed "expr" [⟨"expr", e.json⟩]
  | .bool b => typed "bool" [⟨"value", .bool b⟩]

def textMember (name : String) (text : Option String) : List Member :=
  Member.present name (text.map .string)

def Value.json (v : Value) : Json.Value := .object (v.kind.members ++ textMember "raw" v.raw)

def Raw.json : Raw → Json.Value
  | .source s => .string s
  | .present => .count 1

def Property.json (p : Property) : Json.Value :=
  .object ([⟨"name", .string p.name⟩, ⟨"expr", p.value.json⟩]
    ++ Member.present "raw" (p.raw.map Raw.json)
    ++ if p.twoWay then [⟨"x", .bool true⟩] else [])

def Listener.json (l : Listener) : Json.Value :=
  .object ([⟨"name", .string l.name⟩] ++ Member.nonEmpty "modifiers" (l.modifiers.map .string)
    ++ [⟨"expr", l.handler.json⟩] ++ textMember "raw" l.raw)

def Directive.json (d : Directive) : Json.Value :=
  .object (Member.present "value" (d.value.map Value.json) ++ textMember "item" d.item
    ++ textMember "index" d.index ++ Member.present "trackBy" (d.trackBy.map Value.json)
    ++ textMember "raw" d.raw)

def directivesMember (directives : Entries Directive) : List Member :=
  if directives.isEmpty then []
  else [⟨"directives", .object (directives.map fun (name, d) => ⟨name, d.json⟩)⟩]

def Head.members (h : Head) (children elses : List Json.Value) : List Member :=
  [⟨"tagName", .string h.tag⟩]
    ++ Member.nonEmpty "props" (h.properties.map Property.json)
    ++ Member.nonEmpty "events" (h.listeners.map Listener.json)
    ++ directivesMember h.directives
    ++ Member.nonEmpty "children" children
    ++ Member.nonEmpty "elses" elses
    ++ textMember "raw" h.raw

mutual

def Node.json : Node → Json.Value
  | .text value => .object [⟨"textExpr", value.json⟩]
  | .element e => e.json

def Element.json : Element → Json.Value
  | ⟨head, children, elses⟩ => .object (head.members (nodesJson children) (elementsJson elses))

def nodesJson : List Node → List Json.Value
  | [] => []
  | node :: rest => node.json :: nodesJson rest

def elementsJson : List Element → List Json.Value
  | [] => []
  | e :: rest => e.json :: elementsJson rest

end

end VueToSan.San
