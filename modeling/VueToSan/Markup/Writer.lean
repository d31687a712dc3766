import VueToSan.Markup.Element
import VueToSan.Markup.Tags
import VueToSan.Text.Blank
import VueToSan.Text.Search

/-!
# Writing markup
-/

namespace VueToSan

inductive Dialect where
  | vue
  | atom
deriving DecidableEq, Repr, Inhabited

end VueToSan

namespace VueToSan.Markup

open VueToSan.Text

structure WriteOptions where
  /-- Names a scope that every element is marked with. -/
  scopeId : Option String := none
  /-- Trim spaces, tabs and line feeds around texts. -/
  stripWhitespace : Bool := false
  dialect : Dialect := .vue
deriving DecidableEq, Repr, Inhabited

/-- An attribute as it is written in a tag. A value that does not start with an interpolation has
its blanks collapsed. -/
def writeAttr (name value tag : String) : String :=
  if isValueless name || (value.isEmpty && isPresence tag name) then name
  else
    let cs := value.toList
    let cs := if ['{', '{'].isPrefixOf cs then cs else collapse cs
    name ++ "=\"" ++ String.ofList (replace ['\x22'] "&quot;".toList cs) ++ "\""

def bareScope (id : String) : String :=
  let cs := id.toList
  if "data-a-".toList.isPrefixOf cs || "data-v-".toList.isPrefixOf cs then String.ofList (cs.drop 7)
  else id

def WriteOptions.scopeMark (o : WriteOptions) : String :=
  match o.scopeId.map bareScope with
  | none => ""
  | some id =>
    if id.isEmpty then ""
    else match o.dialect with
      | .vue => " data-v-" ++ id
      | .atom => " data-a-" ++ id

def isStripped (c : Char) : Bool := c == ' ' || c == '\n' || c == '\t'

def writeText (o : WriteOptions) (content : String) : String :=
  if o.stripWhitespace then
    String.ofList (dropEndWhile isStripped (content.toList.dropWhile isStripped))
  else content

def writeStartTag (o : WriteOptions) (h : Head) : String :=
  let attrs := h.attrs.map fun (name, value) => " " ++ writeAttr name value h.tag
  "<" ++ h.tag ++ String.join attrs ++ o.scopeMark ++ ">"

def writeEndTag (h : Head) (hasChildren : Bool) : String :=
  if hasChildren || !isSingle h.tag then "</" ++ h.tag ++ ">" else ""

mutual

def writeElement (o : WriteOptions) : Element → String
  | ⟨head, children, branches⟩ =>
    writeStartTag o head ++ writeNodes o children ++ writeEndTag head (!children.isEmpty) ++
      writeBranches o branches

def writeNodes (o : WriteOptions) : List Node → String
  | [] => ""
  | .element e :: rest => writeElement o e ++ writeNodes o rest
  | .text content _ :: rest => writeText o content ++ writeNodes o rest
  | .comment content _ :: rest => "<!--" ++ content ++ "-->" ++ writeNodes o rest

def writeBranches (o : WriteOptions) : List Branch → String
  | [] => ""
  | ⟨_, .owner⟩ :: rest => writeBranches o rest
  | ⟨_, .element e⟩ :: rest => writeElement o e ++ writeBranches o rest

end

end VueToSan.Markup
