import VueToSan.Text.Ascii
import VueToSan.Text.Blank

/-!
# Loops in San markup

`item in list`, `item, index in list`, each with an optional `trackBy key` behind it. The words `in`
and `trackBy` are read in any case.
-/

namespace VueToSan.San

open VueToSan.Text

structure LoopText where
  item : List Char
  index : Option (List Char)
  list : List Char
  trackBy : Option (List Char)
deriving DecidableEq, Repr

/-- The lower-case letter that a character folds to: the long s and the kelvin sign are letters of
the alphabet in another form. -/
def foldLetter (c : Char) : Char :=
  if c.toNat = 0x17F then 's'
  else if c.toNat = 0x212A then 'k'
  else lowerChar c

def isNameChar (c : Char) : Bool :=
  isLower (foldLetter c) || isDigit c || c == '$' || c == '_'

def skipFolded? : List Char → List Char → Option (List Char)
  | [], cs => some cs
  | w :: ws, c :: cs => if foldLetter c = w then skipFolded? ws cs else none
  | _ :: _, [] => none

/-- Splits off a blank run at the start of a text. Something has to follow it: when nothing does,
the last blank is left. -/
def afterBlanks? (cs : List Char) : Option (List Char) :=
  let blanks := cs.takeWhile isBlank
  match blanks, cs.dropWhile isBlank with
  | [], _ => none
  | _, c :: rest => some (c :: rest)
  | [_], [] => none
  | _ :: _ :: _, [] => blanks.getLast?.map ([·])

def trackBy? (cs : List Char) : Option (List Char) :=
  if cs.head?.any isBlank then
    (skipFolded? "trackby".toList (cs.dropWhile isBlank)).bind afterBlanks?
  else none

def splitTrackBy : List Char → List Char × Option (List Char)
  | [] => ([], none)
  | c :: cs =>
    match trackBy? cs with
    | some key => ([c], some key)
    | none =>
      let (list, key) := splitTrackBy cs
      (c :: list, key)

def indexName? (cs : List Char) : Option (List Char × List Char) :=
  match cs.dropWhile isBlank with
  | ',' :: rest =>
    let rest := rest.dropWhile isBlank
    if (rest.takeWhile isNameChar).isEmpty then none
    else some (rest.takeWhile isNameChar, rest.dropWhile isNameChar)
  | _ => none

def LoopText.ofChars? (cs : List Char) : Option LoopText :=
  let cs := cs.dropWhile isBlank
  let item := cs.takeWhile isNameChar
  let behind := cs.dropWhile isNameChar
  let (index, behind) := match indexName? behind with
    | some (name, rest) => (some name, rest)
    | none => (none, behind)
  if item.isEmpty || !behind.head?.any isBlank then none
  else
    match (skipFolded? "in".toList (behind.dropWhile isBlank)).bind afterBlanks? with
    | none => none
    | some rest =>
      let (list, trackBy) := splitTrackBy rest
      some ⟨item, index, list, trackBy⟩

end VueToSan.San
