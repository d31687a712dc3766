import VueToSan.Markup.Element
import VueToSan.Markup.Grammar
import VueToSan.Markup.Problem
import VueToSan.Markup.Tags

/-!
# Reading markup

Markup is read into element trees. Every text is accepted: what is wrong with it is reported, and
reading goes on.
-/

namespace VueToSan.Markup

open VueToSan.Text

structure ReadOptions where
  /-- Keep texts of blanks only. -/
  keepBlanks : Bool := false
  keepComments : Bool := false
deriving DecidableEq, Repr, Inhabited

structure Read (α : Type) where
  value : α
  problems : List Problem
  cursor : Cursor

def isAttrNameChar (c : Char) : Bool :=
  !isBlank c && c != '\x22' && c != '\x27' && c != '<' && c != '>' && c != '/' && c != '='

def readAttr (c : Cursor) : Attr × Cursor :=
  let name := c.rest.takeWhile isAttrNameChar
  let behind := (c.advance name.length).skipWhile isBlank
  let (value, stop) :=
    if behind.startsWith "=" then readValue ((behind.advance 1).skipWhile isBlank)
    else ([], behind)
  (⟨String.ofList name, String.ofList value, stop.spanFrom c.pos⟩, stop)

def readAttrs : Nat → Cursor → List Attr × Cursor
  | 0, c => ([], c)
  | n + 1, c =>
    let c := c.skipWhile isBlank
    if c.atEnd || c.startsWith ">" || c.startsWith "/>" then ([], c)
    else if (c.rest.takeWhile isAttrNameChar).isEmpty then readAttrs n (c.advance 1)
    else
      let (attr, c) := readAttr c
      let (attrs, c) := readAttrs n c
      (attr :: attrs, c)

def duplicates (seen : List String) : List Attr → List Problem
  | [] => []
  | a :: as =>
    if seen.contains a.name then ⟨.duplicateAttribute a.name, a.span⟩ :: duplicates seen as
    else duplicates (a.name :: seen) as

/-- The entries of declared attributes: a repeated name keeps its place and takes the last value. -/
def entriesOf (attrs : List Attr) : Entries String :=
  Entries.ofList (attrs.map fun a => (a.name, a.value))

def readStartTag (parent : Option String) (c : Cursor) : Read Head :=
  let start := c.pos
  let name := (c.rest.drop 1).takeWhile isTagChar
  let tag := String.ofList name
  let c := c.advance (name.length + 1)
  let (declared, c) := readAttrs (c.rest.length + 1) c
  let selfClosing := c.startsWith "/>"
  let c := c.skipWord "/>"
  let closed := selfClosing || c.startsWith ">"
  let c := if selfClosing then c else c.skipWord ">"
  let unclosed : List Problem := if closed then [] else [⟨.unclosed tag, c.spanFrom start⟩]
  ⟨{ tag := tag, attrs := entriesOf declared, declared := declared, parent := parent,
     selfClosing := selfClosing },
   duplicates [] declared ++ unclosed, c⟩

def readRawText (tag : String) (c : Cursor) : List Node × Cursor :=
  let word := "</" ++ tag
  let content := c.textBefore word
  let stop := c.skipTo word
  (if content.isEmpty then [] else [.text (String.ofList content) (stop.spanFrom c.pos)], stop)

def readEndTag (tag : String) (start : Nat) (c : Cursor) : Read Unit :=
  match endTag? c.rest with
  | some name =>
    if sameLetters name tag then ⟨(), [], c.skipPast ">"⟩
    else ⟨(), [⟨.unclosed tag, c.spanFrom start⟩], c⟩
  | none => ⟨(), [⟨.unclosed tag, c.spanFrom start⟩], c⟩

def readText (options : ReadOptions) (top : Bool) (c : Cursor) : Read (List Node) :=
  let run := textRun false c.rest
  let stop := c.advance run.length
  let span := stop.spanFrom c.pos
  let content := String.ofList run
  if run.all isBlank then ⟨if options.keepBlanks then [.text content span] else [], [], stop⟩
  else if top then ⟨[], [⟨.textOutsideRoot (trimmed content), span⟩], stop⟩
  else ⟨[.text content span], [], stop⟩

def readComment (options : ReadOptions) (c : Cursor) : Read (List Node) :=
  let inside := c.advance 4
  let stop := inside.skipPast "-->"
  let content := String.ofList (inside.textBefore "-->")
  ⟨if options.keepComments then [.comment content (stop.spanFrom c.pos)] else [], [], stop⟩

def readLeaf (options : ReadOptions) (top : Bool) (c : Cursor) : Read (List Node) :=
  if c.startsWith "<!--" then readComment options c
  else if c.startsWith "<!" then ⟨[], [], c.skipPast ">"⟩
  else readText options top c

def readStrayEnd (name : String) (c : Cursor) : Read (List Node) :=
  let stop := c.skipPast ">"
  ⟨[], [⟨.strayEnd name, stop.spanFrom c.pos⟩], stop⟩

/-- The nodes up to an end tag of one of the open elements, the innermost of which comes first, or
up to the end. Every round takes a character at least, so as many rounds as there are characters
and one more suffice. -/
def readNodes (options : ReadOptions) : Nat → List String → Cursor → Read (List Node)
  | 0, _, c => ⟨[], [], c⟩
  | n + 1, opened, c =>
    if c.atEnd then ⟨[], [], c⟩
    else
      match endTag? c.rest with
      | some name =>
        if opened.any (sameLetters name) then ⟨[], [], c⟩
        else
          let stray := readStrayEnd name c
          let next := readNodes options n opened stray.cursor
          ⟨next.value, stray.problems ++ next.problems, next.cursor⟩
      | none =>
        if atMarkup c.rest && !c.startsWith "<!" then
          let start := readStartTag opened.head? c
          let tag := start.value.tag
          let inside : Read (List Node) :=
            if start.value.selfClosing || isVoid tag then ⟨[], [], start.cursor⟩
            else
              let content : Read (List Node) :=
                if isRawText tag then
                  let (nodes, stop) := readRawText tag start.cursor
                  ⟨nodes, [], stop⟩
                else readNodes options n (tag :: opened) start.cursor
              let close := readEndTag tag c.pos content.cursor
              ⟨content.value, content.problems ++ close.problems, close.cursor⟩
          let element : Element :=
            ⟨{ start.value with span := inside.cursor.spanFrom c.pos }, inside.value, []⟩
          let next := readNodes options n opened inside.cursor
          ⟨.element element :: next.value,
           start.problems ++ inside.problems ++ next.problems, next.cursor⟩
        else
          let leaf := readLeaf options opened.isEmpty c
          let next := readNodes options n opened leaf.cursor
          ⟨leaf.value ++ next.value, leaf.problems ++ next.problems, next.cursor⟩

def read (options : ReadOptions) (source : String) : Read (List Node) :=
  let c := Cursor.start source
  readNodes options (c.rest.length + 1) [] c

end VueToSan.Markup
