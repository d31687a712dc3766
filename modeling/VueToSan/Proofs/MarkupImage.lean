import VueToSan.Markup.Writer
import VueToSan.San.Reader

/-!
# The San image of an element tree

The San tree that stands for an element tree: tags are kept, attributes are applied in their order
with the values they are written with, blank texts are dropped, and the else branches of an element
become its elses. There is an image when San accepts every attribute and every text.

A tree is regular when its names, texts and conditional chains are such that its markup can be told
apart again.
-/

namespace VueToSan.Markup

open VueToSan.Text

/-! ## Attributes as written -/

/-- The value that an attribute is written with, before quotes are escaped; `none` when only the
name is written. -/
def keptValue? (name value tag : String) : Option (List Char) :=
  if isValueless name || (value.isEmpty && isPresence tag name) then none
  else if ['{', '{'].isPrefixOf value.toList then some value.toList
  else some (collapse value.toList)

def WriteOptions.scopeName? (o : WriteOptions) : Option String :=
  match o.scopeId.map bareScope with
  | none => none
  | some id =>
    if id.isEmpty then none
    else match o.dialect with
      | .vue => some ("data-v-" ++ id)
      | .atom => some ("data-a-" ++ id)

def Head.kept (o : WriteOptions) (h : Head) : List (String × Option (List Char)) :=
  (h.attrs.map fun (name, value) => (name, keptValue? name value h.tag)) ++
    o.scopeName?.toList.map fun name => (name, none)

def Head.meant (o : WriteOptions) (h : Head) : List (String × Option String) :=
  (h.kept o).map fun (name, value) =>
    (name, value.map fun cs => String.ofList (replace "&quot;".toList ['\x22'] cs))

/-! ## Regular trees -/

/-- Whether no markup starts outside double braces and every double brace is closed. -/
def isCalm : (inBraces : Bool) → List Char → Bool
  | false, '{' :: '{' :: cs => isCalm true cs
  | true, '}' :: '}' :: cs => isCalm false cs
  | inBraces, c :: cs => (inBraces || !atMarkup (c :: cs)) && isCalm inBraces cs
  | inBraces, [] => !inBraces

def isAttrName (name : String) : Bool :=
  !name.isEmpty && name.toList.all San.isAttrNameChar

def isTagName (tag : String) : Bool :=
  tag.toList.head?.any isLetter && tag.toList.all isTagChar

def Head.carriesElse (h : Head) : Bool :=
  h.hasAttr "s-else" || h.hasAttr "s-else-if" || h.hasAttr "s-elif"

def elseBlocks : List Branch → List Element
  | [] => []
  | ⟨_, .owner⟩ :: rest => elseBlocks rest
  | ⟨_, .element e⟩ :: rest => e :: elseBlocks rest

def startsWithText : List Node → Bool
  | .text _ _ :: _ => true
  | _ => false

def WriteOptions.isRegular (o : WriteOptions) : Bool := o.scopeName?.all isAttrName

def Head.isRegular (h : Head) : Bool :=
  isTagName h.tag && h.attrs.all fun (name, _) => isAttrName name

mutual

/-- Whether an element is regular. Where it stands decides whether it continues a conditional. -/
def Element.isRegular (o : WriteOptions) : Element → Bool
  | ⟨head, children, branches⟩ =>
    head.isRegular &&
      (!isVoid head.tag || (lower head.tag == head.tag && children.isEmpty)) &&
      nodesRegular o children &&
      ((elseBlocks branches).isEmpty || head.hasAttr "s-if") && branchesRegular o branches

def nodesRegular (o : WriteOptions) : List Node → Bool
  | [] => true
  | .element e :: rest => !e.head.carriesElse && e.isRegular o && nodesRegular o rest
  | .text content _ :: rest =>
    isCalm false (writeText o content).toList && !startsWithText rest && nodesRegular o rest
  | .comment _ _ :: _ => false

def branchesRegular (o : WriteOptions) : List Branch → Bool
  | [] => true
  | ⟨_, .owner⟩ :: rest => branchesRegular o rest
  | ⟨_, .element e⟩ :: rest =>
    e.head.carriesElse && (elseBlocks e.branches).isEmpty && e.isRegular o && branchesRegular o rest

end

/-! ## Accepted trees -/

def acceptsAttr (name : String) (value : Option String) : Bool :=
  (San.Head.apply { tag := "" } name value ⟨0, 0⟩).toOption.isSome

def acceptsText (cs : List Char) : Bool := (San.readText cs ⟨0, 0⟩).toOption.isSome

def Head.isAccepted (o : WriteOptions) (h : Head) : Bool :=
  (h.meant o).all fun (name, value) => acceptsAttr name value

mutual

def Element.isAccepted (o : WriteOptions) : Element → Bool
  | ⟨head, children, branches⟩ =>
    head.isAccepted o && nodesAccepted o children && branchesAccepted o branches

def nodesAccepted (o : WriteOptions) : List Node → Bool
  | [] => true
  | .element e :: rest => e.isAccepted o && nodesAccepted o rest
  | .text content _ :: rest => acceptsText (writeText o content).toList && nodesAccepted o rest
  | .comment _ _ :: rest => nodesAccepted o rest

def branchesAccepted (o : WriteOptions) : List Branch → Bool
  | [] => true
  | ⟨_, .owner⟩ :: rest => branchesAccepted o rest
  | ⟨_, .element e⟩ :: rest => e.isAccepted o && branchesAccepted o rest

end

/-! ## Images -/

def applyAll (h : San.Head) (attrs : List (String × Option String)) : Option San.Head :=
  attrs.foldlM (fun h (name, value) => (h.apply name value ⟨0, 0⟩).toOption) h

def Head.image? (o : WriteOptions) (h : Head) : Option San.Head :=
  (applyAll { tag := h.tag } (h.meant o)).map ({ · with raw := some (writeStartTag o h) })

def textImage? (cs : List Char) : Option (List San.Node) :=
  if cs.all isBlank then some []
  else (San.readText cs ⟨0, 0⟩).toOption.map fun value => [.text value]

mutual

def Element.image? (o : WriteOptions) : Element → Option San.Element
  | ⟨head, children, branches⟩ => do
    let head ← head.image? o
    let children ← nodesImage? o children
    let elses ← branchesImage? o branches
    return ⟨head, children, elses⟩

def nodesImage? (o : WriteOptions) : List Node → Option (List San.Node)
  | [] => some []
  | .element e :: rest => do
    let e ← e.image? o
    let rest ← nodesImage? o rest
    return .element e :: rest
  | .text content _ :: rest => do
    let text ← textImage? (writeText o content).toList
    let rest ← nodesImage? o rest
    return text ++ rest
  | .comment _ _ :: rest => nodesImage? o rest

def branchesImage? (o : WriteOptions) : List Branch → Option (List San.Element)
  | [] => some []
  | ⟨_, .owner⟩ :: rest => branchesImage? o rest
  | ⟨_, .element e⟩ :: rest => do
    let e ← e.image? o
    let rest ← branchesImage? o rest
    return e :: rest

end

end VueToSan.Markup
