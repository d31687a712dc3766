import VueToSan.Expr.Error
import VueToSan.Expr.Quoted
import VueToSan.Number.Decimal

/-!
# Cutting expressions into tokens

At each place the longest token wins, and a keyword wins over an identifier. Space, tab, carriage
return, line feed and form feed separate tokens.
-/

namespace VueToSan.Expr

open VueToSan.Text

inductive Scanned where
  | token (t : Token) (more : Nat)
  /-- So many characters form no token. -/
  | invalid (more : Nat)
  | openTemplate

def isSeparator (c : Char) : Bool :=
  c == ' ' || c == '\t' || c == '\r' || c == '\n' || c == '\x0c'

def isIdentStart (c : Char) : Bool :=
  isLetter c || c == '_' || c == '$'

def isIdentPart (c : Char) : Bool :=
  isIdentStart c || isDigit c

def wordToken (word : String) : Token :=
  match Keyword.ofText? word with
  | some k => .keyword k
  | none => .ident word

def hexDigits? : List Char → Option (List Char)
  | '0' :: x :: cs =>
    if x = 'x' ∨ x = 'X' then
      let digits := cs.takeWhile (isDigitOf 16)
      if digits.isEmpty then none else some digits
    else none
  | _ => none

def scanNumber? (cs : List Char) : Option Scanned :=
  match hexDigits? cs with
  | some digits =>
    let n := ofDigits 16 digits
    if n < UInt64.size then some (.token (.number (Number.ofNat n)) (digits.length + 1))
    else some (.invalid (digits.length + 1))
  | none =>
    match Number.spanNumeral cs with
    | some (n, rest) => some (.token (.number n.value) (cs.length - rest.length - 1))
    | none => none

/-- The body of a string literal behind its opening quote, and whether a closing quote follows. A
line feed ends the literal unclosed, also behind a backslash. -/
def spanString (quote : Char) : List Char → List Char × Bool
  | [] => ([], false)
  | ['\\'] => (['\\'], false)
  | '\\' :: c :: cs =>
    if c = '\n' then (['\\'], false)
    else
      let r := spanString quote cs
      ('\\' :: c :: r.1, r.2)
  | c :: cs =>
    if c = quote then ([], true)
    else if c = '\n' then ([], false)
    else
      let r := spanString quote cs
      (c :: r.1, r.2)

def scanString (quote : Char) (cs : List Char) : Scanned :=
  match spanString quote cs with
  | (body, true) => .token (.string (String.ofList (unescapeChars body))) (body.length + 1)
  | (body, false) => .invalid body.length

/-- The body of a template string behind its opening backquote, if a closing one follows. Inside an
interpolation braces nest, and quoted strings hide braces and backquotes. -/
def templateBody? : (depth : Nat) → (quote : Option Char) → List Char → Option (List Char)
  | _, _, [] => none
  | _, _, ['\\'] => none
  | depth, quote, '\\' :: c :: cs => (templateBody? depth quote cs).map ('\\' :: c :: ·)
  | depth, some q, c :: cs =>
    (templateBody? depth (if c = q then none else some q) cs).map (c :: ·)
  | 0, none, '$' :: '{' :: cs => (templateBody? 1 none cs).map ('$' :: '{' :: ·)
  | 0, none, c :: cs => if c = '\x60' then some [] else (templateBody? 0 none cs).map (c :: ·)
  | depth + 1, none, c :: cs =>
    let rest :=
      if c = '{' then templateBody? (depth + 2) none cs
      else if c = '}' then templateBody? depth none cs
      else if c = '\x27' ∨ c = '\x22' then templateBody? (depth + 1) (some c) cs
      else templateBody? (depth + 1) none cs
    rest.map (c :: ·)

def scanTemplate (cs : List Char) : Scanned :=
  match templateBody? 0 none cs with
  | some body => .token (.template (String.ofList body)) (body.length + 1)
  | none => .openTemplate

def scanPunct (cs : List Char) : Scanned :=
  match Punct.all.find? (·.text.toList.isPrefixOf cs) with
  | some p => .token (.punct p) (p.text.length - 1)
  | none => .invalid 0

def scan (c : Char) (cs : List Char) : Scanned :=
  if isIdentStart c then
    let word := c :: cs.takeWhile isIdentPart
    .token (wordToken (String.ofList word)) (word.length - 1)
  else if c = '\x27' ∨ c = '\x22' then scanString c cs
  else if c = '\x60' then scanTemplate cs
  else (scanNumber? (c :: cs)).getD (scanPunct (c :: cs))

/-- Cuts a text at byte offset `pos` into tokens. `skip` counts the characters that belong to the
token before. -/
def tokenizeFrom (pos : Nat) : (skip : Nat) → List Char → Except Error (List Lexeme)
  | _, [] => .ok []
  | skip + 1, c :: cs => tokenizeFrom (pos + c.utf8Size) skip cs
  | 0, c :: cs =>
    if isSeparator c then tokenizeFrom (pos + c.utf8Size) 0 cs
    else
      match scan c cs with
      | .token t more => do
        let rest ← tokenizeFrom (pos + c.utf8Size) more cs
        return ⟨t, ⟨pos, pos + byteLength (c :: cs.take more)⟩⟩ :: rest
      | .invalid more =>
        let text := c :: cs.take more
        .error ⟨.badText (String.ofList text), ⟨pos, pos + byteLength text⟩⟩
      | .openTemplate => .error ⟨.openTemplate, ⟨pos, pos + c.utf8Size⟩⟩

def tokenize (source : String) (base : Nat) : Except Error (List Lexeme) :=
  tokenizeFrom base 0 source.toList

end VueToSan.Expr
