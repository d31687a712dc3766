import VueToSan.Markup.Grammar
import VueToSan.Markup.Tags
import VueToSan.San.Loop
import VueToSan.San.Text
import VueToSan.Text.Search

/-!
# Reading San markup

Markup is read up to its end or up to an end tag that closes nothing. An element with an else is
kept with the element before it that has the test.
-/

namespace VueToSan.San

open VueToSan.Text VueToSan.Markup

def isAttrNameChar (c : Char) : Bool :=
  !isBlank c && c != '\x22' && c != '\x27' && c != '>' && c != '/' && c != '='

/-- Words with a colon behind each in front of a handler; `word` holds the current word, the last
letter first. -/
def spanModifiers (word : List Char) : List Char → List String × List Char
  | ':' :: cs =>
    if word.isEmpty then ([], ':' :: cs)
    else
      let (words, rest) := spanModifiers [] cs
      (String.ofList word.reverse :: words, rest)
  | c :: cs =>
    if isLetter c then spanModifiers (c :: word) cs else ([], word.reverse ++ c :: cs)
  | [] => ([], word.reverse)

def readListener (event : String) (raw : String) (span : Span) : Except Error Listener := do
  let (modifiers, code) := spanModifiers [] raw.toList
  let handler ← readExprValue code span
  return ⟨event, modifiers, handler, some raw⟩

def readLoop (raw : String) (span : Span) : Except Error Directive :=
  match LoopText.ofChars? raw.toList with
  | none => .error ⟨.loop raw, span⟩
  | some loop => do
    let trackBy ← loop.trackBy.mapM (readExprValue · span)
    let list ← readExprValue loop.list span
    return { value := some list, item := some (String.ofList loop.item),
             index := loop.index.map String.ofList, trackBy := trackBy, raw := some raw }

def readDirective (name : String) (raw : String) (span : Span) :
    Except Error (String × Directive) := do
  match name with
  | "else" => return ("else", { raw := some raw })
  | "for" => return ("for", ← readLoop raw span)
  | "if" | "transition" =>
    return (name, { value := some (← readExprValue raw.toList span), raw := some raw })
  | "elif" | "else-if" =>
    return ("elif", { value := some (← readExprValue raw.toList span), raw := some raw })
  | _ => return (name, { value := some (← readText raw.toList span), raw := some raw })

def twoWayCode? (raw : String) : Option (List Char) :=
  match trim raw.toList with
  | '{' :: '=' :: cs =>
    match cs.reverse with
    | '}' :: '=' :: code => some code.reverse
    | _ => none
  | _ => none

def readProperty (name : String) (value : Option String) (span : Span) :
    Except Error Property :=
  match value with
  | none => .ok ⟨name, .present, none, false⟩
  | some raw =>
    match twoWayCode? raw with
    | some code => do return ⟨name, ← readExprValue code span, some (.source raw), true⟩
    | none => do return ⟨name, ← readText raw.toList span, some (.source raw), false⟩

def Head.apply (h : Head) (name : String) (value : Option String) (span : Span) :
    Except Error Head := do
  match stripStart? "on-".toList name.toList, stripStart? "s-".toList name.toList with
  | some event, _ =>
    let listener ← readListener (String.ofList event) (value.getD "") span
    return { h with listeners := h.listeners ++ [listener] }
  | none, some directive =>
    let (key, directive) ← readDirective (String.ofList directive) (value.getD "") span
    return { h with directives := h.directives.set key directive }
  | none, none =>
    let property ← readProperty name value span
    return { h with properties := h.properties ++ [property] }

def readAttrValue (c : Cursor) : String × Cursor :=
  let (value, stop) := readValue c
  let value := if c.rest.head?.any isQuote then replace "&quot;".toList ['\x22'] value else value
  (String.ofList value, stop)

def readAttr (c : Cursor) : String × Option String × Cursor :=
  let name := c.rest.takeWhile isAttrNameChar
  let behind := (c.advance name.length).skipWhile isBlank
  if behind.startsWith "=" then
    let (value, stop) := readAttrValue ((behind.advance 1).skipWhile isBlank)
    (String.ofList name, some value, stop)
  else (String.ofList name, none, behind)

def readAttrs : Nat → Head → Cursor → Except Error (Head × Cursor)
  | 0, h, c => .ok (h, c)
  | n + 1, h, c =>
    let c := c.skipWhile isBlank
    if c.atEnd || c.startsWith ">" || c.startsWith "/>" then .ok (h, c)
    else if (c.rest.takeWhile isAttrNameChar).isEmpty then readAttrs n h (c.advance 1)
    else do
      let (name, value, stop) := readAttr c
      let h ← h.apply name value (stop.spanFrom c.pos)
      readAttrs n h stop

def readStartTag (c : Cursor) : Except Error (Head × Bool × Cursor) := do
  let name := (c.rest.drop 1).takeWhile isTagChar
  let inside := c.advance (name.length + 1)
  let (h, last) ← readAttrs (inside.rest.length + 1) { tag := String.ofList name } inside
  let stop := last.skipPast ">"
  let raw := c.rest.take (c.rest.length - stop.rest.length)
  return ({ h with raw := some (String.ofList raw) }, last.startsWith "/>", stop)

def readEndTag (tag : String) (start : Nat) (c : Cursor) : Except Error Cursor :=
  match endTag? c.rest with
  | none => .error ⟨.unclosed tag none, c.spanFrom start⟩
  | some found =>
    let behind := c.advance (found.length + 2)
    if sameLetters found tag then .ok (behind.skipPast ">")
    else .error ⟨.unclosed tag (some found), behind.spanFrom c.pos⟩

/-- Keeps an else branch with the closest element before it, the nodes before being given from the
last to the first; `none` when that element has no test. -/
def foldElse (branch : Element) : List Node → Option (List Node)
  | [] => none
  | .text value :: before => (foldElse branch before).map (.text value :: ·)
  | .element e :: before =>
    if e.head.directives.has "if" then
      some (.element { e with elses := e.elses ++ [branch] } :: before)
    else none

def readNodes : Nat → List Node → Cursor → Except Error (List Node × Cursor)
  | 0, done, c => .ok (done.reverse, c)
  | n + 1, done, c =>
    if c.atEnd || c.startsWith "</" then .ok (done.reverse, c)
    else if c.startsWith "<!" then readNodes n done (c.skipPast ">")
    else if atMarkup c.rest then do
      let (head, selfClosing, inside) ← readStartTag c
      let (children, stop) ←
        if selfClosing || isVoid head.tag then pure ([], inside)
        else do
          let (children, last) ← readNodes n [] inside
          let stop ← readEndTag head.tag c.pos last
          pure (children, stop)
      let element : Element := ⟨head, children, []⟩
      if head.isElse then
        match foldElse element done with
        | some done => readNodes n done stop
        | none => .error ⟨.elseWithoutIf, stop.spanFrom c.pos⟩
      else readNodes n (.element element :: done) stop
    else do
      let run := textRun false c.rest
      let stop := c.advance run.length
      if run.all isBlank then readNodes n done stop
      else
        let value ← readText run (stop.spanFrom c.pos)
        readNodes n (.text value :: done) stop

def read (source : String) : Except Error (List Node) := do
  let c := Cursor.start source
  let (nodes, _) ← readNodes (c.rest.length + 1) [] c
  return nodes

end VueToSan.San
