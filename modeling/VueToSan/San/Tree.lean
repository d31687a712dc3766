import VueToSan.Data.Entries
import VueToSan.Expr.Node

/-!
# San trees

The tree that the San runtime loads. Values, attributes and elements keep the source they were read
from until `strip` drops it.

A node is a text or an element, never both and never neither, a text has no source beside that of
its value, and the else branches of a conditional are elements. This is narrower than a record with
an optional tag and an optional text, and it holds every tree that reading builds.
-/

namespace VueToSan.San

inductive Segment where
  | literal (text : String)
  | interpolation (expr : Expr.Piped)

inductive ValueKind where
  | text (segments : List Segment)
  | expr (expr : Expr.Piped)
  | bool (value : Bool)

structure Value where
  kind : ValueKind
  raw : Option String

namespace Value

def present : Value := ⟨.bool true, none⟩

def expr? (v : Value) : Option Expr.Piped :=
  match v.kind with
  | .expr e => some e
  | _ => none

def segments? (v : Value) : Option (List Segment) :=
  match v.kind with
  | .text segments => some segments
  | _ => none

end Value

inductive Raw where
  | source (text : String)
  | present
deriving DecidableEq, Repr

structure Property where
  name : String
  value : Value
  raw : Option Raw
  /-- Whether changes flow back. -/
  twoWay : Bool

structure Listener where
  name : String
  modifiers : List String
  handler : Value
  raw : Option String

structure Directive where
  value : Option Value := none
  item : Option String := none
  index : Option String := none
  trackBy : Option Value := none
  raw : Option String := none

structure Head where
  tag : String
  properties : List Property := []
  listeners : List Listener := []
  directives : Entries Directive := []
  raw : Option String := none

namespace Head

def property? (h : Head) (name : String) : Option Property := h.properties.find? (·.name == name)

def listener? (h : Head) (name : String) : Option Listener := h.listeners.find? (·.name == name)

def directive? (h : Head) (name : String) : Option Directive := h.directives.get? name

def isElse (h : Head) : Bool := h.directives.has "else" || h.directives.has "elif"

end Head

mutual

inductive Node where
  | text (value : Value)
  | element (e : Element)

structure Element where
  head : Head
  children : List Node
  /-- The else branches of a conditional. -/
  elses : List Element

end

namespace Node

def isText : Node → Bool
  | text _ => true
  | element _ => false

end Node

end VueToSan.San
