import VueToSan.Data.Entries
import VueToSan.Source.Span

/-!
# Element trees

An element keeps its attributes twice: as ordered entries, which rules change, and as they were
declared. Its directive fields are filled from the entries by `Head.extract`.
-/

namespace VueToSan.Markup

structure Attr where
  name : String
  value : String
  span : Span
deriving DecidableEq, Repr, Inhabited

/-- The header of a loop: `(item, iterator1, iterator2) in source`. -/
structure Loop where
  source : String
  item : String
  iterator1 : Option String
  iterator2 : Option String
deriving DecidableEq, Repr, Inhabited

/-- A directive `v-name:arg.modifiers` without fields of its own in `Head`. -/
structure Directive where
  name : String
  rawName : String
  value : String
  arg : Option String
  modifiers : List String
deriving DecidableEq, Repr, Inhabited

structure Head where
  tag : String
  attrs : Entries String := []
  declared : List Attr := []
  /-- The tag of the enclosing element; none at the top. -/
  parent : Option String := none
  selfClosing : Bool := false
  span : Span := ⟨0, 0⟩
  ifTest : Option String := none
  elseIfTest : Option String := none
  hasElse : Bool := false
  loop : Option Loop := none
  key : Option String := none
  staticClass : Option String := none
  classBinding : Option String := none
  /-- The static style as an object literal. -/
  staticStyle : Option String := none
  styleBinding : Option String := none
  directives : List Directive := []
deriving DecidableEq, Repr, Inhabited

namespace Head

def isRoot (h : Head) : Bool := h.parent.isNone

def attr? (h : Head) (name : String) : Option String := h.attrs.get? name

def hasAttr (h : Head) (name : String) : Bool := h.attrs.has name

def setAttr (h : Head) (name value : String) : Head := { h with attrs := h.attrs.set name value }

def removeAttr (h : Head) (name : String) : Head := { h with attrs := h.attrs.erase name }

def replaceAttr (h : Head) (old new value : String) : Head :=
  { h with attrs := h.attrs.replace old new value }

def directive? (h : Head) (name : String) : Option Directive :=
  h.directives.find? (·.name == name)

def isConditional (h : Head) : Bool := h.ifTest.isSome || h.elseIfTest.isSome || h.hasElse

def isBranch (h : Head) : Bool := h.elseIfTest.isSome || h.hasElse

end Head

mutual

inductive Node where
  | element (e : Element)
  | text (content : String) (span : Span)
  | comment (content : String) (span : Span)

structure Element where
  head : Head
  children : List Node
  /-- The conditional chain that starts here: empty, or the element itself and then its else
  branches. -/
  branches : List Branch

structure Branch where
  /-- The test; none for a plain else. -/
  test : Option String
  block : Block

inductive Block where
  | owner
  | element (e : Element)

end

instance : Inhabited Element := ⟨⟨default, [], []⟩⟩

namespace Node

def element? : Node → Option Element
  | element e => some e
  | _ => none

def ofText (content : String) : Node := text content ⟨0, 0⟩

end Node

namespace Element

def ofTag (tag : String) : Element := ⟨{ tag := tag }, [], []⟩

def mapHead (f : Head → Head) (e : Element) : Element := { e with head := f e.head }

def derive (e : Element) (tag : String) (attrs : Entries String) : Element :=
  ⟨{ e.head with tag := tag, attrs := attrs }, e.children, []⟩

def addBranch (e : Element) (branch : Element) : Element :=
  let own : List Branch := if e.branches.isEmpty then [⟨e.head.ifTest, .owner⟩] else e.branches
  { e with branches := own ++ [⟨branch.head.elseIfTest, .element branch⟩] }

end Element

def firstElement? (nodes : List Node) : Option Element := nodes.findSome? (·.element?)

end VueToSan.Markup
