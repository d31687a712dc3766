import VueToSan.Transform.Context
import VueToSan.Transform.Edit

/-!
# Rules

A rule transforms one element. Before the children of the element are walked it may change the head;
afterwards it may change everything.
-/

namespace VueToSan.Transform

open VueToSan.Markup

structure Rule where
  name : String
  before : Element → Context → Head × Context := fun e context => (e.head, context)
  after : Element → Context → Edit (Element × Context) := fun e context => .done (e, context)

namespace Rule

def ofBefore (name : String) (f : Head → Head) : Rule where
  name := name
  before e context := (f e.head, context)

def ofHead (name : String) (f : Head → Edit Head) : Rule where
  name := name
  after e context := (f e.head).map fun head => ({ e with head := head }, context)

def ofElement (name : String) (f : Element → Edit Element) : Rule where
  name := name
  after e context := (f e).map (·, context)

def ofHeadAndContext (name : String) (f : Head × Context → Edit (Head × Context)) : Rule where
  name := name
  after e context := (f (e.head, context)).map fun (head, context) =>
    ({ e with head := head }, context)

end Rule

def fragmentTag : String := "fragment"

def interpolate (code : String) : String := "\x7b\x7b " ++ code ++ " \x7d\x7d"

def bindBack (code : String) : String := "\x7b= " ++ code ++ " =\x7d"

def interpolated? (value : String) : Option (List Char) :=
  match value.toList with
  | '{' :: '{' :: cs =>
    match cs.reverse with
    | '}' :: '}' :: code => some code.reverse
    | _ => none
  | _ => none

/-- Sets an attribute in place of the ones it is made of. It keeps its own place if it is present,
and takes the place of the first of the others otherwise. -/
def mergeAttr (h : Head) (name : String) (parts : List String) (value : String) : Head :=
  let merged :=
    if h.hasAttr name then h.setAttr name value
    else match parts.find? h.hasAttr with
      | some anchor => h.replaceAttr anchor name value
      | none => h.setAttr name value
  parts.foldl (·.removeAttr ·) merged

end VueToSan.Transform
