import VueToSan.Markup.Element
import VueToSan.Text.Blank

/-!
# Loop headers

`item in items`, `(item, index) of items` and `(value, key, index) in object`.
-/

namespace VueToSan.Markup

open VueToSan.Text

def afterKeyword? : List Char → Option (List Char)
  | 'i' :: 'n' :: c :: cs => if isBlank c then some cs else none
  | 'o' :: 'f' :: c :: cs => if isBlank c then some cs else none
  | _ => none

/-- Cuts a header at its first blank run that is followed by `in` or `of` and a blank. -/
def splitHeader? : List Char → Option (List Char × List Char)
  | [] => none
  | c :: cs =>
    match if isBlank c then afterKeyword? (cs.dropWhile isBlank) else none with
    | some source => some ([], source)
    | none => (splitHeader? cs).map fun (names, source) => (c :: names, source)

def isIteratorChar (c : Char) : Bool := c != ',' && c != '}' && c != ']'

def iteratorTail? (cs : List Char) : Option (List Char × Option (List Char)) :=
  match cs.dropWhile isIteratorChar with
  | [] => some (cs.takeWhile isIteratorChar, none)
  | ',' :: rest =>
    if rest.all isIteratorChar then some (cs.takeWhile isIteratorChar, some rest) else none
  | _ => none

def splitIterators? : List Char → Option (List Char × List Char × Option (List Char))
  | [] => none
  | c :: cs =>
    match if c = ',' then iteratorTail? cs else none with
    | some (first, second) => some ([], first, second)
    | none => (splitIterators? cs).map fun (before, tail) => (c :: before, tail)

def stripParens (cs : List Char) : List Char :=
  let cs := match cs with
    | '(' :: rest => rest
    | _ => cs
  if cs.getLast? = some ')' then cs.dropLast else cs

def Loop.ofText? (text : String) : Option Loop :=
  match splitHeader? text.toList with
  | none => none
  | some (names, source) =>
    let source := String.ofList (trim source)
    let names := stripParens (trim names)
    match splitIterators? names with
    | none => some ⟨source, String.ofList names, none, none⟩
    | some (item, first, second) =>
      let second := (second.map trim).filter (!·.isEmpty)
      some ⟨source, String.ofList (trim item), some (String.ofList (trim first)),
        second.map String.ofList⟩

end VueToSan.Markup
